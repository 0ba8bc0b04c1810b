import Oregon.Proofs.Journal
import Oregon.Sanity.Run

/-! Nested calls are atomic: whatever a backend does, both stacks are as deep after the call
as before it, and a call that does not succeed leaves nothing behind. A call that is
read only still moves the value attached to it, so only calls without value leave the
state alone. -/

namespace Oregon.Execution

open Lib ContractState
open Std (ExtTreeMap)

/-- An effect stack that its own operations have made. -/
inductive EffectStackV1.Built : EffectStackV1 → Prop where
  | new (limits : CoordinatorLimitsV1) : Built (.new limits)
  | begin {e e' : EffectStackV1} (built : Built e) (h : e.begin = .ok e') : Built e'
  | commit {e e' : EffectStackV1} (built : Built e) (h : e.commit = .ok e') : Built e'
  | revert {e e' : EffectStackV1} (built : Built e) (h : e.revert = .ok e') : Built e'
  | retain {e e' : EffectStackV1} {bytes : ℕ} (built : Built e)
      (h : e.retainReturnBytes bytes = .ok e') : Built e'
  | event {e : EffectStackV1} (built : Built e) (emitter : ExecutionAddress) (topics : List Hash256)
      (data : Bytes) : Built (perform (EffectStackV1.pushEventParts emitter topics data) e).2

theorem EffectStackV1.Built.inv {e : EffectStackV1} (h : e.Built) : e.Inv := by
  induction h with
  | new limits => exact effects_new_inv limits
  | begin _ h ih => exact (begin_ok ih h).1
  | @commit e e' _ h ih =>
    have hlength : e.frames.length ≠ 1 := by
      simp only [EffectStackV1.commit, bind_eq_ok, ensure_eq_ok] at h
      exact h.choose_spec.1
    obtain ⟨child, parent, rest, hframes⟩ := exists_cons_cons ih.frames hlength
    exact Except.ok.inj ((commit_ok ih hframes).symm.trans h) ▸ ih.merged hframes
  | @revert e e' _ h ih =>
    have hlength : e.frames.length ≠ 1 := by
      simp only [EffectStackV1.revert, bind_eq_ok, ensure_eq_ok] at h
      exact h.choose_spec.1
    obtain ⟨child, parent, rest, hframes⟩ := exists_cons_cons ih.frames hlength
    exact Except.ok.inj ((revert_ok ih hframes).symm.trans h) ▸ ih.below hframes
  | @retain e e' bytes _ h ih =>
    obtain ⟨frame, rest, hframes⟩ := List.exists_cons_of_ne_nil ih.frames
    have hle : e.liveRetainedBytes + bytes ≤ e.limits.maxEffectBytes := by
      by_contra hle
      cases (retainReturnBytes_error hle).symm.trans h
    exact Except.ok.inj ((retainReturnBytes_ok ih hframes hle).symm.trans h) ▸ ih.retained hframes hle
  | @event e _ emitter topics data ih =>
    obtain ⟨frame, rest, hframes⟩ := List.exists_cons_of_ne_nil ih.frames
    rcases pushEventParts_cases ih hframes emitter topics data with
      ⟨_, -, hpush⟩ | ⟨_, -, hinv, hpush⟩
    · rwa [hpush]
    · rwa [hpush]

section

variable [Crypto]

/-- A journal that was opened, and then called in some way. -/
def ExecutionJournalV1.Built (j : ExecutionJournalV1) : Prop :=
  ∃ source context snapshots limits opened calls,
    ExecutionJournalV1.new source context snapshots limits = .ok opened ∧ j = opened.after calls

/-- A host state of a journal and effects that their own operations have made. -/
structure HostState.Built (s : HostState) : Prop where
  journal : s.journal.Built
  effects : s.effects.Built

theorem ExecutionJournalV1.Built.inv {j : ExecutionJournalV1} (h : j.Built) : j.Inv := by
  obtain ⟨source, context, snapshots, limits, opened, calls, hnew, rfl⟩ := h
  exact (after_inv hnew calls).1

theorem HostState.Built.inv {s : HostState} (h : s.Built) : s.Inv := ⟨h.journal.inv, h.effects.inv⟩

variable {charges : HostChargeScheduleV1} {dispatch : RuntimeDispatchTableV1}
  {parent : RuntimeCallContextV1} {spec : RuntimeCallSpecV1} {s t : HostState}
  {r : Except RuntimeHostSignalV1 RuntimeCallResultV1}

theorem executeNestedCall_cases (hs : s.Inv)
    (h : perform (executeNestedCall dispatch (runBackend charges dispatch) parent spec) s = (r, t)) :
    ((∀ data, r ≠ .ok (.success data)) ∧ Restored s t) ∨
    ∃ child factory s₁ log data u,
      perform (enterCall dispatch parent spec) s = (.ok (.inr (child, factory)), s₁) ∧
      Run charges dispatch child (factory child) s₁ log (.ok (.success data)) u ∧
      r = .ok (.success data) ∧
      Merged (fun domain key => touched child.parts.readOnly log.transfers domain key ∨
        Transfer.touches ⟨parent.parts.target, spec.target, spec.value⟩ domain key) log.events s u t := by
  rw [executeNestedCall] at h
  cases henter : perform (enterCall dispatch parent spec) s with
  | mk entered s₁ =>
    have hentry := enterCall_entry hs henter
    rcases entered with signal | (refusal | ⟨child, factory⟩)
    · rw [perform_bind_error henter] at h
      cases h
      refine Or.inl ⟨by rintro _ ⟨⟩, ?_⟩
      cases hentry with
      | aborted hrestored => exact hrestored
      | failed _ _ hrestored => exact hrestored
    · rw [perform_bind_ok henter] at h
      cases hentry with
      | trapped hrestored =>
        cases h
        exact Or.inl ⟨by rintro _ ⟨⟩, hrestored⟩
    · rw [perform_bind_ok henter] at h
      rw [perform_bind_ok (perform_attempt ..)] at h
      obtain ⟨log, hrun⟩ := runBackend_run charges dispatch child factory s₁
      generalize perform (runBackend charges dispatch child factory) s₁ = ended at h hrun
      obtain ⟨backendResult, u⟩ := ended
      have habove : Above (Transfer.touches ⟨parent.parts.target, spec.target, spec.value⟩) [] s s₁ := by
        cases hentry with
        | entered _ _ hbegun hmoves =>
          exact hbegun.above hs (hmoves.grown (beginFrame_ok hs.journal hbegun.journal).1)
      have hall := (habove.mono fun _ _ => Or.inr).advance
        ((hrun.advance habove.inv).mono fun _ _ => Or.inl (b := Transfer.touches _ _ _))
      rcases leaveCall_cases hall hs h with ⟨data, rfl, rfl, -, hmerged⟩ | ⟨hrolled, -⟩
      · exact Or.inr ⟨child, factory, s₁, log, data, u, rfl, hrun, rfl, hmerged⟩
      · exact Or.inl ⟨hrolled.failed, hrolled.restored⟩

variable (charges dispatch parent spec) in
/-- A nested call is atomic, whatever its backend does. -/
theorem nested_call_atomic (hs : s.Built)
    (h : perform (executeNestedCall dispatch (runBackend charges dispatch) parent spec) s = (r, t)) :
    t.journal.frames.length = s.journal.frames.length ∧
    t.effects.frames.length = s.effects.frames.length ∧
    s.meter.consumed ≤ t.meter.consumed ∧
    (∀ data, r = .ok (.success data) → ∃ child factory s₁ log u,
      perform (enterCall dispatch parent spec) s = (.ok (.inr (child, factory)), s₁) ∧
      Run charges dispatch child (factory child) s₁ log (.ok (.success data)) u ∧
      (∀ domain key, t.journal.read domain key = u.journal.read domain key) ∧
      t.effects.liveEvents = u.effects.liveEvents ∧
      t.effects.liveEvents = s.effects.liveEvents ++ log.events) ∧
    ((∀ data, r ≠ .ok (.success data)) →
      (∀ domain key, t.journal.read domain key = s.journal.read domain key) ∧
      t.effects.liveEvents = s.effects.liveEvents) := by
  rcases executeNestedCall_cases hs.inv h with
    ⟨hfailed, hrestored⟩ | ⟨child, factory, s₁, log, data, u, henter, hrun, rfl, hmerged⟩
  · have hadvance := hrestored.advance (P := fun _ _ => False)
    refine ⟨hadvance.journal.depth, hadvance.effects.depth, hadvance.metered.meter.consumed,
      fun data hdata => absurd hdata (hfailed data),
      fun _ => ⟨fun domain key => hadvance.journal.read id, ?_⟩⟩
    rw [hadvance.effects.liveEvents, List.append_nil]
  · have hadvance := hmerged.advance
    refine ⟨hadvance.journal.depth, hadvance.effects.depth, hadvance.metered.meter.consumed,
      fun data' hdata => ?_, fun hfailed => absurd rfl (hfailed data)⟩
    cases hdata
    exact ⟨child, factory, s₁, log, u, henter, hrun,
      fun domain key => hmerged.base.read_eq (hmerged.pending domain key), hmerged.liveEvents,
      hadvance.effects.liveEvents⟩

/-- A call that carries nothing, or only to its own caller. -/
def MovesNothing (context : RuntimeCallContextV1) (spec : RuntimeCallSpecV1) : Prop :=
  spec.value = 0 ∨ context.parts.target = spec.target

omit [Crypto] in
theorem MovesNothing.not_touches {context : RuntimeCallContextV1} {spec : RuntimeCallSpecV1}
    (h : MovesNothing context spec) (domain : CommitmentDomainId) (key : Bytes) :
    ¬ Transfer.touches ⟨context.parts.target, spec.target, spec.value⟩ domain key :=
  fun htouches => h.elim htouches.1 htouches.2.1

variable (charges dispatch parent spec) in
/-- A read-only call changes no state when neither it nor a call below it moves any value,
as far as these calls get to their backends. -/
theorem read_only_call_reads (hs : s.Built)
    (hreadOnly : parent.parts.readOnly = true ∨ spec.readOnly = true)
    (hcalls : ∀ child factory s₁,
      perform (enterCall dispatch parent spec) s = (.ok (.inr (child, factory)), s₁) →
      MovesNothing parent spec ∧
      ∀ log backendResult u, Run charges dispatch child (factory child) s₁ log backendResult u →
        ∀ p ∈ log.points, ∀ spec', p.op = .call spec' →
          Enters charges dispatch p.context spec' p.before → MovesNothing p.context spec')
    (h : perform (executeNestedCall dispatch (runBackend charges dispatch) parent spec) s = (r, t)) :
    ∀ domain ∈ [CommitmentDomainId.wasm, .executionAccounting], ∀ key,
      t.journal.read domain key = s.journal.read domain key := by
  intro domain _ key
  rcases executeNestedCall_cases hs.inv h with
    ⟨-, hrestored⟩ | ⟨child, factory, s₁, log, data, u, henter, hrun, rfl, hmerged⟩
  · exact (hrestored.advance (P := fun _ _ => False)).journal.read id
  · obtain ⟨hspec, hbelow⟩ := hcalls child factory s₁ henter
    refine hmerged.advance.journal.read ?_
    rintro ((⟨-, hwritable⟩ | ⟨x, hx, htouches⟩) | htouches)
    · have hcontext : deriveChildContext parent spec = .ok child := by
        cases enterCall_entry hs.inv henter with
        | entered hcontext => exact hcontext
      rw [(deriveChildContext_ok hcontext).2.1, Bool.or_eq_false_iff] at hwritable
      rcases hreadOnly with hreadOnly | hreadOnly
      · simp [hreadOnly] at hwritable
      · simp [hreadOnly] at hwritable
    · obtain ⟨p, hp, spec', hop, henters, rfl⟩ := hrun.transfer_point x hx
      exact (hbelow log _ u hrun p hp spec' hop henters).not_touches domain key htouches
    · exact hspec.not_touches domain key htouches

end

namespace Sample

open Oregon.ContractState.Sample

def alice : ExecutionAddress := ⟨.wasm, 1, by decide⟩

def bob : ExecutionAddress := ⟨.wasm, 2, by decide⟩

/-- A journal for the state of contracts and for balances. -/
def opened : ExecutionJournalV1 where
  source := nothing
  context := context
  snapshots := (ExtTreeMap.insert ∅ .wasm ⟨.wasm, 5⟩).insert .executionAccounting
    ⟨.executionAccounting, 6⟩
  frames := [.default]
  limits := .default
  totalFramesCreated := 1
  liveEntries := 0
  retainedBytes := 0

/-- Each of the two has five units. -/
def funding : List JournalCall :=
  [.put .executionAccounting (balanceKey alice) (encodeAccountingU64 5),
    .put .executionAccounting (balanceKey bob) (encodeAccountingU64 5)]

theorem one_valid : ¬ ((1 : ℕ) = 0 ∨ (1 : ℕ) = 0) := by decide

def one : WeightRatio := ⟨1, 1, one_valid⟩

def limits : CoordinatorLimitsV1 := ⟨64, 256, 2097152, by decide⟩

def noCharges : HostChargeScheduleV1 := ⟨0, 0, 0, 0, 0, 0, 0, 0, 0, 0, 0, 0, 0, 0⟩

def host : HostState where
  journal := opened.after funding
  meter := ⟨⟨one, one, one⟩, fun _ => 0, 1, 100, false, by decide⟩
  effects := .new limits
  terminal := .running

theorem host_built : host.Built :=
  ⟨⟨nothing, context, [⟨.wasm, 5⟩, ⟨.executionAccounting, 6⟩], .default, opened, funding, rfl, rfl⟩,
    .new limits⟩

/-- The context of a backend for the first of the two. -/
def aliceContext : RuntimeCallContextV1 where
  parts := { chainId := 1, height := 2, parentBlockHash := 3, txid := 4, principal := alice,
             caller := alice, target := alice, executionDomain := .wasm, depth := 1,
             readOnly := false, transferredValue := 0 }
  depth_mem := by decide
  domain_matches := by decide

def idle : RuntimeBackendV1 := fun _ => .done (.ok (.success []))

/-- A backend that writes, emits an event and succeeds whatever comes of that. -/
def busy : RuntimeBackendV1 := fun _ =>
  .ask (.statePut [1] [2]) fun _ => .ask (.emitEvent [] [3]) fun _ => .done (.ok (.success []))

def payAlice : RuntimeCallSpecV1 := ⟨alice, 1, false, [], by decide, by decide⟩

/-- A backend that writes, and then calls with a value. -/
def paying : RuntimeBackendV1 := fun _ =>
  .ask (.statePut [1] [2]) fun _ => .ask (.call payAlice) fun _ => .done (.ok (.success []))

def only (backend : RuntimeBackendV1) : RuntimeDispatchTableV1 :=
  ⟨ExtTreeMap.insert ∅ bob.toBytes backend⟩

def callBob (value : ℕ) (readOnly : Bool) : RuntimeCallSpecV1 :=
  ⟨bob, value, readOnly, [], by decide, by decide⟩

end Sample

open Oregon.ContractState.Sample Oregon.Execution.Sample in
theorem nested_call_atomic_sample :
    ∃ t, perform (executeNestedCall (only busy) (runBackend noCharges (only busy)) aliceContext
        (callBob 1 false)) host = (.ok (.success []), t) ∧
      t.effects.liveEvents.length = 1 ∧ t.journal.frames.length = host.journal.frames.length := by
  refine ⟨_, Prod.ext ?_ rfl, ?_, (nested_call_atomic noCharges (only busy) aliceContext (callBob 1 false)
    host_built rfl).1⟩
  · decide +kernel
  · decide +kernel

open Oregon.ContractState.Sample Oregon.Execution.Sample in
/-- The value that is attached to a read-only call is moved. -/
theorem read_only_call_moves_value :
    (callBob 1 true).readOnly = true ∧ host.Built ∧
      (perform (executeNestedCall (only idle) (runBackend noCharges (only idle)) aliceContext
        (callBob 1 true)) host).2.journal.read .executionAccounting (balanceKey alice) ≠
      host.journal.read .executionAccounting (balanceKey alice) :=
  ⟨rfl, host_built, by decide +kernel⟩

open Oregon.ContractState.Sample Oregon.Execution.Sample in
/-- The call below, which would move a unit, is refused for want of a backend. -/
theorem read_only_call_reads_sample : host.Built ∧
    ∀ domain ∈ [CommitmentDomainId.wasm, .executionAccounting], ∀ key,
      (perform (executeNestedCall (only paying) (runBackend noCharges (only paying)) aliceContext
        (callBob 0 true)) host).2.journal.read domain key = host.journal.read domain key := by
  refine ⟨host_built, read_only_call_reads noCharges (only paying) aliceContext (callBob 0 true)
    host_built (Or.inr rfl) ?_ rfl⟩
  intro child factory s₁ henter
  refine ⟨Or.inl rfl, fun log backendResult u hrun p hp spec' hop henters => ?_⟩
  have hfactory : factory = paying := by
    cases enterCall_entry host_built.inv henter with
    | entered _ hfound => exact Option.some.inj (hfound.symm.trans ExtTreeMap.getElem?_insert_self)
  subst hfactory
  have hnone : ((only paying).factoryFor payAlice.target).isNone = true := by decide +kernel
  have hnobody : ∀ context s, ¬ Enters noCharges (only paying) context payAlice s := by
    rintro context s ⟨_, _, _, hstart⟩
    rw [(startCall_context hstart).2] at hnone
    cases hnone
  have hpoints : ∀ first second : Point, first.op = .statePut [1] [2] →
      second.op = .call payAlice → p ∈ [first, second] → MovesNothing p.context spec' := by
    intro first second hfirst hsecond hp
    rcases List.mem_pair.mp hp with rfl | rfl
    · cases hfirst.symm.trans hop
    · cases hsecond.symm.trans hop
      exact absurd henters (hnobody _ _)
  cases hrun with
  | op _ _ rest =>
    cases rest with
    | op hcall => cases hcall
    | stopped _ rest =>
      cases rest
      exact hpoints _ _ rfl rfl hp
    | refused _ _ rest =>
      cases rest
      exact hpoints _ _ rfl rfl hp
    | call hstart => exact absurd ⟨_, _, _, hstart⟩ (hnobody _ _)

end Oregon.Execution
