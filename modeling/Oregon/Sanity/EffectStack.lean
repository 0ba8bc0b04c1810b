import Oregon.Sanity.Journal
import Oregon.Spec.EffectStack
import Oregon.Spec.Weight

/-! What charges do to the meter, and what the operations of the effect stack do to its
frames. The counters of the stack are the true counts, so a frame can always be merged
or dropped. -/

namespace Oregon.Execution

open Lib

/-- What no charge undoes. -/
structure MeterStep (m m' : WeightMeter) : Prop where
  maxWeight : m'.maxWeight = m.maxWeight
  consumed : m.consumed ≤ m'.consumed
  exhausted : m.exhausted = true → m'.exhausted = true

/-- A charge fails exactly when the meter is exhausted after it. -/
structure Charging (charge : WeightMeter → Except ResourceError Unit × WeightMeter) : Prop where
  step : ∀ m, MeterStep m (charge m).2
  ok : ∀ m, (charge m).1 = .ok () → (charge m).2.exhausted = false
  error : ∀ m e, (charge m).1 = .error e → (charge m).2.exhausted = true

section

variable {m m' : WeightMeter}

theorem MeterStep.refl (m : WeightMeter) : MeterStep m m := ⟨rfl, le_rfl, id⟩

theorem MeterStep.trans {m'' : WeightMeter} (h : MeterStep m m') (h' : MeterStep m' m'') :
    MeterStep m m'' :=
  ⟨h'.maxWeight.trans h.maxWeight, h.consumed.trans h'.consumed, h'.exhausted ∘ h.exhausted⟩

theorem spend_cases (hm : m.exhausted = false) (weight : ℕ) :
    (m.maxWeight - m.consumed < weight ∧ m.spend weight = m.exhaust) ∨
      weight ≤ m.maxWeight - m.consumed ∧ (m.spend weight).1 = .ok () ∧
        (m.spend weight).2.exhausted = false ∧ (m.spend weight).2.maxWeight = m.maxWeight ∧
        (m.spend weight).2.consumed = m.consumed + weight := by
  unfold WeightMeter.spend
  grind

theorem exhaust_step (m : WeightMeter) : MeterStep m m.exhaust.2 := ⟨rfl, m.consumed_le, fun _ => rfl⟩

theorem chargeCommon_charging (weight : ℕ) : Charging fun m => m.chargeCommon weight := by
  have hcases : ∀ m : WeightMeter, MeterStep m (m.chargeCommon weight).2 ∧
      ((m.chargeCommon weight).1 = .ok () → (m.chargeCommon weight).2.exhausted = false) ∧
      ∀ e, (m.chargeCommon weight).1 = .error e → (m.chargeCommon weight).2.exhausted = true := by
    intro m
    unfold WeightMeter.chargeCommon
    split_ifs with hm
    · exact ⟨.refl m, by rintro ⟨⟩, fun _ _ => hm⟩
    · rw [Bool.not_eq_true] at hm
      rcases spend_cases hm weight with ⟨-, h⟩ | ⟨-, hok, hexhausted, hmax, hconsumed⟩
      · rw [h]
        exact ⟨exhaust_step m, by rintro ⟨⟩, fun _ _ => rfl⟩
      · refine ⟨⟨hmax, by omega, fun h => absurd h (by simp [hm])⟩, fun _ => hexhausted, ?_⟩
        simp_all
  exact ⟨fun m => (hcases m).1, fun m => (hcases m).2.1, fun m => (hcases m).2.2⟩

theorem charge_charging (domain : ResourceDomain) (units : ℕ) :
    Charging fun m => m.charge domain units := by
  have hcases : ∀ m : WeightMeter, MeterStep m (m.charge domain units).2 ∧
      ((m.charge domain units).1 = .ok () → (m.charge domain units).2.exhausted = false) ∧
      ∀ e, (m.charge domain units).1 = .error e → (m.charge domain units).2.exhausted = true := by
    intro m
    unfold WeightMeter.charge
    split_ifs with hm hunits
    · exact ⟨.refl m, by rintro ⟨⟩, fun _ _ => hm⟩
    · exact ⟨.refl m, fun _ => Bool.not_eq_true _ ▸ hm, by rintro _ ⟨⟩⟩
    · rw [Bool.not_eq_true] at hm
      cases m.delta domain units with
      | none => exact ⟨exhaust_step m, by rintro ⟨⟩, fun _ _ => rfl⟩
      | some next =>
        obtain ⟨nextCounter, delta⟩ := next
        dsimp only
        rcases spend_cases hm delta with ⟨-, h⟩ | ⟨-, hok, hexhausted, hmax, hconsumed⟩
        · rw [h]
          exact ⟨exhaust_step m, by rintro ⟨⟩, fun _ _ => rfl⟩
        · cases hspend : m.spend delta with
          | mk r m' =>
            rw [hspend] at hok hexhausted hmax hconsumed
            dsimp only at hok hexhausted hmax hconsumed
            subst hok
            exact ⟨⟨hmax, by dsimp only; omega, fun h => absurd h (by simp [hm])⟩,
              fun _ => hexhausted, by rintro _ ⟨⟩⟩
  exact ⟨fun m => (hcases m).1, fun m => (hcases m).2.1, fun m => (hcases m).2.2⟩

end

/-- The bytes that a frame retains. -/
def EffectFrameV1.bytes (frame : EffectFrameV1) : ℕ :=
  frame.retainedEventBytes + frame.retainedReturnBytes

/-- The events of all open calls, in the order in which they were emitted. -/
def EffectStackV1.liveEvents (stack : EffectStackV1) : List ExecutionEventV1 :=
  stack.frames.reverse.flatMap EffectFrameV1.events

structure EffectStackV1.Inv (stack : EffectStackV1) : Prop where
  frames : stack.frames ≠ []
  events : stack.liveEventCount = (stack.frames.map fun frame => frame.events.length).sum
  bytes : stack.liveRetainedBytes = (stack.frames.map EffectFrameV1.bytes).sum
  events_le : stack.liveEventCount ≤ stack.limits.maxEvents
  bytes_le : stack.liveRetainedBytes ≤ stack.limits.maxEffectBytes

/-- The stack with other frames, and the counters for them. -/
def EffectStackV1.withFrames (stack : EffectStackV1) (frames : List EffectFrameV1) :
    EffectStackV1 :=
  { stack with frames, liveEventCount := (frames.map fun frame => frame.events.length).sum,
               liveRetainedBytes := (frames.map EffectFrameV1.bytes).sum }

/-- The frame that a commit leaves in place of the two newest. -/
def EffectFrameV1.merged (parent child : EffectFrameV1) : EffectFrameV1 :=
  ⟨parent.events ++ child.events, parent.retainedEventBytes + child.retainedEventBytes,
    parent.retainedReturnBytes + child.retainedReturnBytes⟩

theorem CoordinatorLimitsV1.bounds (limits : CoordinatorLimitsV1) :
    limits.maxCallDepth ≤ 64 ∧ limits.maxEvents ≤ 256 ∧ limits.maxEffectBytes ≤ 2097152 := by
  have := limits.valid
  simp only [MAX_RUNTIME_CALL_DEPTH, MAX_EXECUTION_EVENTS_V1, MAX_COORDINATOR_EFFECT_BYTES_V1] at this
  omega

theorem effects_new_inv (limits : CoordinatorLimitsV1) : (EffectStackV1.new limits).Inv :=
  ⟨List.cons_ne_nil _ _, rfl, rfl, Nat.zero_le _, Nat.zero_le _⟩

section

variable {stack stack' : EffectStackV1}

theorem begin_eq_ok : stack.begin = .ok stack' ↔
    (stack.frames.length + 1 ≤ stack.limits.maxCallDepth ∧
      stack.totalFramesCreated + 1 ≤ MAX_COORDINATOR_FRAMES_V1) ∧
    { stack with frames := .default :: stack.frames,
                 totalFramesCreated := stack.totalFramesCreated + 1 } = stack' := by
  have hbounds := stack.limits.bounds
  have hframes : MAX_COORDINATOR_FRAMES_V1 < 2 ^ 64 := by decide
  simp only [EffectStackV1.begin, bind_eq_ok, ensure_eq_ok, exists_and_left, exists_const,
    orElse_eq_ok, checkedAdd_eq_some, pure_eq_ok]
  constructor
  · simp_all
  · rintro ⟨⟨hle, hle'⟩, h⟩
    exact ⟨_, ⟨rfl, by omega⟩, hle, _, ⟨rfl, by omega⟩, hle', h⟩

theorem begin_ok (hinv : stack.Inv) (h : stack.begin = .ok stack') :
    stack'.Inv ∧ stack'.limits = stack.limits ∧ stack'.frames = .default :: stack.frames := by
  obtain ⟨-, rfl⟩ := begin_eq_ok.mp h
  refine ⟨⟨List.cons_ne_nil _ _, ?_, ?_, hinv.events_le, hinv.bytes_le⟩, rfl, rfl⟩
  · simpa [EffectFrameV1.default] using hinv.events
  · simpa [EffectFrameV1.default, EffectFrameV1.bytes] using hinv.bytes

section

variable {child parent : EffectFrameV1} {rest : List EffectFrameV1}

theorem EffectStackV1.Inv.sums (hinv : stack.Inv) (hframes : stack.frames = child :: parent :: rest) :
    stack.liveEventCount = child.events.length +
        (parent.events.length + (rest.map fun frame => frame.events.length).sum) ∧
      stack.liveRetainedBytes =
        child.bytes + (parent.bytes + (rest.map EffectFrameV1.bytes).sum) ∧
      stack.liveRetainedBytes ≤ 2097152 := by
  have hevents := hinv.events
  have hbytes := hinv.bytes
  simp only [hframes, List.map_cons, List.sum_cons] at hevents hbytes
  exact ⟨hevents, hbytes, hinv.bytes_le.trans stack.limits.bounds.2.2⟩

theorem revert_ok (hinv : stack.Inv) (hframes : stack.frames = child :: parent :: rest) :
    stack.revert = .ok (stack.withFrames (parent :: rest)) := by
  obtain ⟨hevents, hbytes, hle⟩ := hinv.sums hframes
  have hlength : (child :: parent :: rest).length ≠ 1 := by simp
  have hsum : child.retainedEventBytes + child.retainedReturnBytes = child.bytes := rfl
  rw [EffectStackV1.revert, hframes, ensure_ok hlength, ok_bind]
  dsimp only
  rw [EffectFrameV1.retainedBytes, checkedAdd, if_pos (by omega), orElse_some, ok_bind, hevents,
    hbytes, hsum, checkedSub, if_pos (Nat.le_add_right ..), checkedSub, if_pos (Nat.le_add_right ..),
    Nat.add_sub_cancel_left, Nat.add_sub_cancel_left]
  rfl

theorem commit_ok (hinv : stack.Inv) (hframes : stack.frames = child :: parent :: rest) :
    stack.commit = .ok (stack.withFrames (parent.merged child :: rest)) := by
  obtain ⟨hevents, hbytes, hle⟩ := hinv.sums hframes
  have hlength : (child :: parent :: rest).length ≠ 1 := by simp
  have hcount : stack.liveEventCount =
      ((parent.merged child :: rest).map fun frame => frame.events.length).sum := by
    simp only [EffectFrameV1.merged, List.map_cons, List.sum_cons, List.length_append]
    omega
  have hretained : stack.liveRetainedBytes =
      ((parent.merged child :: rest).map EffectFrameV1.bytes).sum := by
    simp only [EffectFrameV1.merged, EffectFrameV1.bytes, List.map_cons, List.sum_cons] at hbytes ⊢
    omega
  simp only [EffectFrameV1.bytes] at hbytes
  rw [EffectStackV1.commit, hframes, ensure_ok hlength, ok_bind]
  dsimp only
  rw [checkedAdd, if_pos (by omega), orElse_some, ok_bind, checkedAdd, if_pos (by omega), orElse_some,
    ok_bind, EffectStackV1.withFrames, ← hcount, ← hretained]
  rfl

theorem EffectStackV1.Inv.below (hinv : stack.Inv) (hframes : stack.frames = child :: parent :: rest) :
    (stack.withFrames (parent :: rest)).Inv := by
  obtain ⟨hevents, hbytes, -⟩ := hinv.sums hframes
  refine ⟨List.cons_ne_nil _ _, rfl, rfl, le_trans ?_ hinv.events_le, le_trans ?_ hinv.bytes_le⟩
  · simp only [withFrames, List.map_cons, List.sum_cons]
    omega
  · simp only [withFrames, List.map_cons, List.sum_cons]
    omega

theorem EffectStackV1.Inv.merged (hinv : stack.Inv)
    (hframes : stack.frames = child :: parent :: rest) :
    (stack.withFrames (parent.merged child :: rest)).Inv := by
  obtain ⟨hevents, hbytes, -⟩ := hinv.sums hframes
  refine ⟨List.cons_ne_nil _ _, rfl, rfl, le_trans ?_ hinv.events_le, le_trans ?_ hinv.bytes_le⟩
  · simp only [withFrames, EffectFrameV1.merged, List.map_cons, List.sum_cons, List.length_append]
    omega
  · simp only [withFrames, EffectFrameV1.merged, EffectFrameV1.bytes, List.map_cons,
      List.sum_cons] at hbytes ⊢
    omega

end

section

variable {frame : EffectFrameV1} {rest : List EffectFrameV1} {bytes : ℕ}

/-- Return bytes are retained as long as there is room. -/
theorem retainReturnBytes_ok (hinv : stack.Inv) (hframes : stack.frames = frame :: rest)
    (hle : stack.liveRetainedBytes + bytes ≤ stack.limits.maxEffectBytes) :
    stack.retainReturnBytes bytes = .ok (stack.withFrames
      ({ frame with retainedReturnBytes := frame.retainedReturnBytes + bytes } :: rest)) := by
  have hbounds := stack.limits.bounds
  have hevents := hinv.events
  have hbytes := hinv.bytes
  simp only [hframes, List.map_cons, List.sum_cons, EffectFrameV1.bytes] at hevents hbytes
  rw [EffectStackV1.retainReturnBytes, checkedAdd, if_pos (by omega), orElse_some, ok_bind,
    ensure_ok hle, ok_bind, hframes]
  dsimp only
  rw [checkedAdd, if_pos (by omega), orElse_some, ok_bind, EffectStackV1.withFrames]
  simp only [List.map_cons, List.sum_cons, EffectFrameV1.bytes]
  rw [← hevents, show frame.retainedEventBytes + (frame.retainedReturnBytes + bytes) +
    (rest.map EffectFrameV1.bytes).sum = stack.liveRetainedBytes + bytes by omega]
  rfl

theorem retainReturnBytes_error
    (h : ¬ stack.liveRetainedBytes + bytes ≤ stack.limits.maxEffectBytes) :
    stack.retainReturnBytes bytes = .error .effectBytesLimitExceeded := by
  rw [EffectStackV1.retainReturnBytes]
  cases hadd : checkedAdd stack.liveRetainedBytes bytes with
  | none => rfl
  | some nextLive =>
    obtain ⟨rfl, -⟩ := checkedAdd_eq_some.mp hadd
    rw [orElse_some, ok_bind, ensure_error h, error_bind]

theorem EffectStackV1.Inv.retained (hinv : stack.Inv) (hframes : stack.frames = frame :: rest)
    (hle : stack.liveRetainedBytes + bytes ≤ stack.limits.maxEffectBytes) :
    (stack.withFrames
      ({ frame with retainedReturnBytes := frame.retainedReturnBytes + bytes } :: rest)).Inv := by
  have hevents := hinv.events
  have hbytes := hinv.bytes
  have hcount := hinv.events_le
  simp only [hframes, List.map_cons, List.sum_cons, EffectFrameV1.bytes] at hevents hbytes
  refine ⟨List.cons_ne_nil _ _, rfl, rfl, ?_, ?_⟩
  · simp only [withFrames, List.map_cons, List.sum_cons]
    omega
  · simp only [withFrames, List.map_cons, List.sum_cons, EffectFrameV1.bytes]
    omega

/-- The frame with one more event. -/
def EffectFrameV1.emit (frame : EffectFrameV1) (event : ExecutionEventV1) : EffectFrameV1 :=
  { frame with events := frame.events ++ [event],
               retainedEventBytes := frame.retainedEventBytes + event.data.length }

/-- An error that a limit on events or their bytes gives. -/
def CoordinatorError.isEventLimit (e : CoordinatorError) : Prop :=
  e = .eventTopicsTooLarge ∨ e = .eventDataTooLarge ∨ e = .eventLimitExceeded ∨
    e = .effectBytesLimitExceeded

theorem reserveEvent_cases (stack : EffectStackV1) (dataBytes : ℕ) :
    (∃ e, e.isEventLimit ∧ stack.reserveEvent dataBytes = .error e) ∨
      stack.liveEventCount + 1 ≤ stack.limits.maxEvents ∧
      stack.liveRetainedBytes + dataBytes ≤ stack.limits.maxEffectBytes ∧
      stack.reserveEvent dataBytes =
        .ok { stack with liveEventCount := stack.liveEventCount + 1,
                         liveRetainedBytes := stack.liveRetainedBytes + dataBytes } := by
  cases hreserve : stack.reserveEvent dataBytes with
  | error e =>
    simp only [EffectStackV1.reserveEvent, bind_eq_error, orElse_eq_error, ensure_eq_error,
      pure, Except.pure, reduceCtorEq, and_false, exists_false, or_false] at hreserve
    grind [CoordinatorError.isEventLimit]
  | ok stack' =>
    simp only [EffectStackV1.reserveEvent, bind_eq_ok, ensure_eq_ok, exists_and_left, exists_const,
      orElse_eq_ok, checkedAdd_eq_some, pure_eq_ok] at hreserve
    simp_all

/-- An event is added to the newest frame, or a limit refuses it. -/
theorem pushEventParts_cases (hinv : stack.Inv) (hframes : stack.frames = frame :: rest)
    (emitter : ExecutionAddress) (topics : List Hash256) (data : Bytes) :
    (∃ e, e.isEventLimit ∧
      perform (EffectStackV1.pushEventParts emitter topics data) stack = (.error e, stack)) ∨
    ∃ event, ExecutionEventV1.new emitter topics data = .ok event ∧
      (stack.withFrames (frame.emit event :: rest)).Inv ∧
      perform (EffectStackV1.pushEventParts emitter topics data) stack =
        (.ok (), stack.withFrames (frame.emit event :: rest)) := by
  rw [EffectStackV1.pushEventParts]
  by_cases htopics : topics.length ≤ MAX_EXECUTION_EVENT_TOPICS_V1
  case neg =>
    refine Or.inl ⟨.eventTopicsTooLarge, Or.inl rfl, ?_⟩
    rw [perform_bind, perform_check, ensure_error htopics]
  by_cases hdata : data.length ≤ MAX_EXECUTION_EVENT_DATA_BYTES_V1
  case neg =>
    refine Or.inl ⟨.eventDataTooLarge, Or.inr (Or.inl rfl), ?_⟩
    grind [perform_bind, perform_check, ensure_ok, ensure_error]
  have hnew : ExecutionEventV1.new emitter topics data = .ok ⟨emitter, topics, data, htopics, hdata⟩ := by
    rw [ExecutionEventV1.new, dif_neg (Nat.not_lt.mpr htopics), dif_neg (Nat.not_lt.mpr hdata)]
  simp only [perform_bind, perform_check, ensure_ok htopics, ensure_ok hdata, perform_update, hnew,
    Except.mapError]
  rcases reserveEvent_cases stack data.length with ⟨e, he, hreserve⟩ | ⟨hevents, hbytes, hreserve⟩
  · grind
  · have hcount := hinv.events
    have hretained := hinv.bytes
    have hbounds := stack.limits.bounds
    simp only [hframes, List.map_cons, List.sum_cons, EffectFrameV1.bytes] at hcount hretained
    refine Or.inr ⟨_, rfl, ⟨List.cons_ne_nil _ _, rfl, rfl, ?_, ?_⟩, ?_⟩
    · simp only [EffectStackV1.withFrames, EffectFrameV1.emit, List.map_cons, List.sum_cons,
        List.length_append, List.length_singleton]
      omega
    · simp only [EffectStackV1.withFrames, EffectFrameV1.emit, List.map_cons, List.sum_cons,
        EffectFrameV1.bytes]
      omega
    · rw [hreserve]
      dsimp only
      rw [EffectStackV1.addEvent, hframes]
      dsimp only
      rw [checkedAdd, if_pos (by omega), orElse_some, ok_bind, EffectStackV1.withFrames]
      simp only [EffectFrameV1.emit, List.map_cons, List.sum_cons, List.length_append,
        List.length_singleton, EffectFrameV1.bytes]
      rw [show frame.events.length + 1 + (rest.map fun frame => frame.events.length).sum =
          stack.liveEventCount + 1 by omega,
        show frame.retainedEventBytes + data.length + frame.retainedReturnBytes +
          (rest.map EffectFrameV1.bytes).sum = stack.liveRetainedBytes + data.length by omega]
      rfl

end

end

end Oregon.Execution
