import Oregon.Sanity.EffectStack
import Oregon.Spec.NestedCalls

/-! What one operation of the host can do. Everything but its last action is quiet: it
charges the meter and latches the terminal state. The last action is a write to the
newest frame of the journal, or an event in the newest frame of the effects. -/

namespace Oregon.Execution

open Lib ContractState

def CoordinatorTerminalV1.rank : CoordinatorTerminalV1 → ℕ
  | running => 0
  | resourceExhausted => 1
  | fatal => 2

/-- An exhausted meter has ended the transaction. -/
def HostState.Latched (s : HostState) : Prop := s.meter.exhausted = true → s.terminal ≠ .running

/-- What no operation undoes. -/
structure Metered (s s' : HostState) : Prop where
  meter : MeterStep s.meter s'.meter
  terminal : s.terminal.rank ≤ s'.terminal.rank
  latched : s.Latched → s'.Latched

/-- Steps on the meter and the terminal state alone. -/
structure Quiet (s s' : HostState) : Prop extends Metered s s' where
  journal : s'.journal = s.journal
  effects : s'.effects = s.effects

structure HostState.Inv (s : HostState) : Prop where
  journal : s.journal.Inv
  effects : s.effects.Inv

section

variable {s t u : HostState}

theorem Metered.refl (s : HostState) : Metered s s := ⟨.refl _, le_rfl, id⟩

theorem Metered.trans (h : Metered s t) (h' : Metered t u) : Metered s u :=
  ⟨h.meter.trans h'.meter, h.terminal.trans h'.terminal, h'.latched ∘ h.latched⟩

/-- The journal and the effects do not matter to the meter. -/
theorem Metered.congr (h : Metered s t) (hmeter : u.meter = t.meter)
    (hterminal : u.terminal = t.terminal) : Metered s u := by
  obtain ⟨hstep, hrank, hlatched⟩ := h
  refine ⟨hmeter ▸ hstep, hterminal ▸ hrank, fun hs => ?_⟩
  have := hlatched hs
  rwa [HostState.Latched, hmeter, hterminal]

theorem Quiet.refl (s : HostState) : Quiet s s := ⟨.refl s, rfl, rfl⟩

theorem Quiet.trans (h : Quiet s t) (h' : Quiet t u) : Quiet s u :=
  ⟨h.toMetered.trans h'.toMetered, h'.journal.trans h.journal, h'.effects.trans h.effects⟩

theorem Quiet.inv (h : Quiet s t) (hs : s.Inv) : t.Inv :=
  ⟨h.journal ▸ hs.journal, h.effects ▸ hs.effects⟩

end

section

variable {α : Type}

theorem ensureRunning_quiet : Lib.Follows Quiet ensureRunning := by
  intro s
  exact .refl s

theorem latch_quiet {terminal : CoordinatorTerminalV1} (s : HostState)
    (hrank : s.terminal.rank ≤ terminal.rank) (hne : terminal ≠ .running) :
    Quiet s (perform (latch terminal : Host α) s).2 :=
  ⟨⟨.refl _, hrank, fun _ _ => hne⟩, rfl, rfl⟩

theorem rank_le (terminal : CoordinatorTerminalV1) : terminal.rank ≤ 2 := by
  cases terminal <;> decide

theorem latchFatal_quiet : Lib.Follows Quiet (latchFatal : Host α) := fun s =>
  latch_quiet s (rank_le s.terminal) (by rintro ⟨⟩)

theorem checkedHostCost_quiet (cost : Except CoordinatorError ℕ) :
    Lib.Follows Quiet (checkedHostCost cost) := by
  cases cost with
  | ok value => exact .refl
  | error e => exact latchFatal_quiet

theorem requireWasmState_quiet (context : RuntimeCallContextV1) :
    Lib.Follows Quiet (requireWasmState context) := by
  unfold requireWasmState
  split
  · exact .refl
  · exact .refl
  · exact latchFatal_quiet
  · exact latchFatal_quiet

/-- How a charge ends, for a transaction that is running. -/
theorem perform_chargeMeter (charge : WeightMeter → Except ResourceError Unit × WeightMeter)
    (s : HostState) : perform (chargeMeter charge) s = match charge s.meter with
      | (.ok (), meter) => (.ok (), { s with meter })
      | (.error _, meter) => (.error .abort, { s with meter, terminal := .resourceExhausted }) := by
  rw [chargeMeter, perform_bind, perform_get]
  dsimp only
  cases charge s.meter with
  | mk r meter => cases r <;> rfl

theorem chargeMeter_quiet {charge : WeightMeter → Except ResourceError Unit × WeightMeter}
    (hcharge : Charging charge) {s : HostState} (hs : s.terminal = .running) :
    Quiet s (perform (chargeMeter charge) s).2 := by
  have hstep := hcharge.step s.meter
  have hok := hcharge.ok s.meter
  rw [perform_chargeMeter]
  cases h : charge s.meter with
  | mk r meter =>
    rw [h] at hstep hok
    cases r with
    | ok u =>
      refine ⟨⟨hstep, le_rfl, fun _ hexhausted => ?_⟩, rfl, rfl⟩
      simp_all
    | error e => exact ⟨⟨hstep, by rw [hs]; exact Nat.zero_le _, by rintro _ _ ⟨⟩⟩, rfl, rfl⟩

/-- A check of the terminal state before something quiet. -/
theorem afterRunning_quiet {x : Host α} (hx : ∀ s, s.terminal = .running → Quiet s (perform x s).2) :
    Lib.Follows Quiet (ensureRunning >>= fun _ => x) := by
  intro s
  rw [perform_bind, ensureRunning, perform_bind, perform_get]
  dsimp only
  by_cases hs : s.terminal = .running
  · rw [ensure_ok hs]
    exact hx s hs
  · rw [ensure_error hs]
    exact .refl s

theorem chargeCommonWeight_quiet (weight : ℕ) : Lib.Follows Quiet (chargeCommonWeight weight) :=
  afterRunning_quiet fun _ => chargeMeter_quiet (chargeCommon_charging weight)

theorem chargeVmWeight_quiet (context : RuntimeCallContextV1) (units : ℕ) :
    Lib.Follows Quiet (chargeVmWeight context units) := by
  refine afterRunning_quiet fun s hs => ?_
  split
  · exact chargeMeter_quiet (charge_charging .evm units) hs
  · exact chargeMeter_quiet (charge_charging .wasm units) hs
  · exact latchFatal_quiet s
  · exact latchFatal_quiet s

/-- Quiet steps in a row. -/
theorem quiet_absorbs : Absorbs Quiet (fun (s : HostState) (_ : Except RuntimeHostSignalV1 α) t =>
    Quiet s t) :=
  ⟨.refl, fun _ _ _ h => h, fun _ _ _ _ h h' => h.trans h'⟩

theorem stateGet_quiet [Crypto] (charges : HostChargeScheduleV1) (context : RuntimeCallContextV1)
    (key : Bytes) : Lib.Follows Quiet (stateGet charges context key) := by
  have hcharge : ∀ (cost : Except CoordinatorError ℕ) (bytes : Bytes), Lib.Follows Quiet
      (do let cost ← checkedHostCost cost; chargeCommonWeight cost; pure (some bytes)) :=
    fun cost bytes => quiet_absorbs.bind (checkedHostCost_quiet cost) fun _ =>
      quiet_absorbs.bind (chargeCommonWeight_quiet _) fun _ => .refl
  refine quiet_absorbs.bind ensureRunning_quiet fun _ =>
    quiet_absorbs.bind (requireWasmState_quiet context) fun _ =>
    quiet_absorbs.check fun scopedKey _ =>
    quiet_absorbs.bind (checkedHostCost_quiet _) fun _ =>
    quiet_absorbs.bind (chargeCommonWeight_quiet _) fun _ => Ensures.get fun s => ?_
  cases s.journal.read .wasm scopedKey with
  | error e => exact latchFatal_quiet s
  | ok value =>
    cases value with
    | none => exact .refl s
    | some bytes => exact hcharge _ bytes s

end

/-- The event that is emitted, unless that fails. -/
def emittedEvent (context : RuntimeCallContextV1) (topics : List Hash256) (data : Bytes) :
    Except RuntimeHostSignalV1 Unit → List ExecutionEventV1
  | .ok () => (ExecutionEventV1.new context.parts.target topics data).toOption.toList
  | .error _ => []

/-- What an operation other than a call emits, by how it ends. -/
def emitted (context : RuntimeCallContextV1) :
    (op : RuntimeHostOp) → Except RuntimeHostSignalV1 op.Answer → List ExecutionEventV1
  | .emitEvent topics data, r => emittedEvent context topics data r
  | _, _ => []

/-- What an operation other than a call does. -/
inductive OpStep (context : RuntimeCallContextV1) (s : HostState) :
    HostState → List ExecutionEventV1 → Prop where
  | quiet {t : HostState} (h : Quiet s t) : OpStep context s t []
  | write {t : HostState} {key : Bytes} {value : JournalValue} {j : ExecutionJournalV1}
      (h : Quiet s t) (writable : context.parts.readOnly = false)
      (written : s.journal.stageWrite .wasm key value = .ok j) :
      OpStep context s { t with journal := j } []
  | event {t : HostState} {event : ExecutionEventV1} {frame : EffectFrameV1}
      {rest : List EffectFrameV1} (h : Quiet s t) (frames : s.effects.frames = frame :: rest)
      (inv : (s.effects.withFrames (frame.emit event :: rest)).Inv) :
      OpStep context s { t with effects := s.effects.withFrames (frame.emit event :: rest) } [event]

section

variable {context : RuntimeCallContextV1} {s t u : HostState} {events : List ExecutionEventV1}

theorem OpStep.after (h : Quiet s t) (hstep : OpStep context t u events) :
    OpStep context s u events := by
  cases hstep with
  | quiet h' => exact .quiet (h.trans h')
  | write h' hwritable hwritten => exact .write (h.trans h') hwritable (h.journal ▸ hwritten)
  | event h' hframes hinv =>
    rw [h.effects] at hframes hinv ⊢
    exact .event (h.trans h') hframes hinv

/-- The step of an operation, as a relation to its outcome. -/
theorem opStep_absorbs (context : RuntimeCallContextV1) {β : Type}
    {e : Except RuntimeHostSignalV1 β → List ExecutionEventV1} (he : ∀ signal, e (.error signal) = []) :
    Absorbs Quiet fun s r t => s.Inv → OpStep context s t (e r) := by
  refine ⟨.refl, fun s signal t h _ => ?_, fun s t r u h hstep hs => (hstep (h.inv hs)).after h⟩
  exact he signal ▸ .quiet h

variable (charges : HostChargeScheduleV1) (context)

theorem writeState_step (hwritable : context.parts.readOnly = false) (key : Bytes)
    (value : JournalValue) {r : Except RuntimeHostSignalV1 Unit} {s t : HostState}
    (h : perform (writeState key value) s = (r, t)) : OpStep context s t [] := by
  rw [writeState, perform_bind, onJournal, perform_within, perform_update] at h
  cases hwritten : s.journal.stageWrite .wasm key value with
  | ok j =>
    rw [hwritten] at h
    cases h
    exact .write (.refl s) hwritable hwritten
  | error e =>
    rw [hwritten] at h
    cases h
    exact .quiet (latchFatal_quiet (α := Unit) s)

theorem statePut_step (key value : Bytes) : Ensures (statePut charges context key value)
    fun s _ t => s.Inv → OpStep context s t [] := by
  have habsorbs := opStep_absorbs (β := Unit) context (e := fun _ => []) fun _ => rfl
  refine habsorbs.bind ensureRunning_quiet fun _ =>
    habsorbs.bind (requireWasmState_quiet context) fun _ =>
    habsorbs.check fun _ _ => habsorbs.check fun scopedKey _ => habsorbs.check fun _ hwritable =>
    habsorbs.bind (checkedHostCost_quiet _) fun _ =>
    habsorbs.bind (chargeCommonWeight_quiet _) fun _ s _ => ?_
  have hwritable : context.parts.readOnly = false := by simpa using hwritable
  exact writeState_step context hwritable scopedKey (some value) rfl

theorem stateDelete_step (key : Bytes) : Ensures (stateDelete charges context key)
    fun s _ t => s.Inv → OpStep context s t [] := by
  have habsorbs := opStep_absorbs (β := Unit) context (e := fun _ => []) fun _ => rfl
  refine habsorbs.bind ensureRunning_quiet fun _ =>
    habsorbs.bind (requireWasmState_quiet context) fun _ =>
    habsorbs.check fun scopedKey _ => habsorbs.check fun _ hwritable =>
    habsorbs.bind (checkedHostCost_quiet _) fun _ =>
    habsorbs.bind (chargeCommonWeight_quiet _) fun _ s _ => ?_
  have hwritable : context.parts.readOnly = false := by simpa using hwritable
  exact writeState_step context hwritable scopedKey none rfl

theorem mapEffectError_limit {α : Type} {e : CoordinatorError} (he : e.isEventLimit) :
    (mapEffectError e : Host α) = throw (.trap .eventLimitExceeded) := by
  rcases he with rfl | rfl | rfl | rfl <;> rfl

theorem emitEvent_step (topics : List Hash256) (data : Bytes) :
    Ensures (emitEvent charges context topics data)
      fun s r t => s.Inv → OpStep context s t (emittedEvent context topics data r) := by
  have habsorbs := opStep_absorbs context (e := emittedEvent context topics data) fun _ => rfl
  refine habsorbs.bind ensureRunning_quiet fun _ => habsorbs.check fun _ _ =>
    habsorbs.bind (checkedHostCost_quiet _) fun _ =>
    habsorbs.bind (chargeCommonWeight_quiet _) fun _ s hs => ?_
  obtain ⟨frame, rest, hframes⟩ := List.exists_cons_of_ne_nil hs.effects.frames
  rw [perform_bind, onEffects, perform_within]
  rcases pushEventParts_cases hs.effects hframes context.parts.target topics data with
    ⟨e, he, hpush⟩ | ⟨event, hnew, hinv, hpush⟩
  · simp only [hpush, mapEffectError_limit he, perform_throw]
    exact .quiet (.refl s)
  · simp only [hpush, perform_pure, emittedEvent, hnew]
    exact .event (.refl s) hframes hinv

/-- A nested call is the one operation that can do more. -/
def RuntimeHostOp.isCall : RuntimeHostOp → Bool
  | .call _ => true
  | _ => false

variable [Crypto]

theorem hostOp_step (execute : RuntimeCallSpecV1 → Host RuntimeCallResultV1) {op : RuntimeHostOp}
    (hop : op.isCall = false) : Ensures (hostOp charges context execute op)
      fun s r t => s.Inv → OpStep context s t (emitted context op r) := by
  cases op with
  | stateGet key => exact fun s _ => .quiet (stateGet_quiet charges context key s)
  | statePut key value => exact statePut_step context charges key value
  | stateDelete key => exact stateDelete_step context charges key
  | emitEvent topics data => exact emitEvent_step context charges topics data
  | call spec => cases hop
  | chargeVmUnits units => exact fun s _ => .quiet (chargeVmWeight_quiet context units s)
  | chargeCommon units => exact fun s _ => .quiet (chargeCommonWeight_quiet units s)

end

end Oregon.Execution
