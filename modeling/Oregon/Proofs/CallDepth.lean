import Oregon.Proofs.TopLevel

/-! How deep calls can be nested. A context at depth `d` has `d` frames on the journal and on the
effects, above those that were there; the effects start with a frame of their own, which
counts against the limit. A call at the limit therefore gets no frame, and the
transaction is exhausted where the caller should see a trap. -/

namespace Oregon.Execution

open Lib ContractState

/-- The stacks while a context at `depth` runs, over a journal of `below` frames. -/
structure Level (below : ℕ) (limits : CoordinatorLimitsV1) (depth : ℕ) (s : HostState) : Prop where
  inv : s.Inv
  within : depth < limits.maxCallDepth
  journal : s.journal.frames.length = below + depth
  effects : s.effects.frames.length = 1 + depth
  journal_limits : s.journal.limits = .default
  limits : s.effects.limits = limits

/-- The frames that a call at `depth` needs are within both limits. -/
def DepthFits (journal : ExecutionJournalV1) (limits : CoordinatorLimitsV1) (depth : ℕ) : Prop :=
  depth < limits.maxCallDepth ∧ journal.frames.length + depth ≤ MAX_JOURNAL_DEPTH

/-- A call that was charged for and got no backend because of its depth: it trapped, or it
exhausted the transaction. -/
def RefusedForDepth
    (r : Except RuntimeHostSignalV1 (RuntimeCallResultV1 ⊕ RuntimeCallContextV1 × RuntimeBackendV1))
    (t : HostState) : Prop :=
  r = .ok (.inl (.trap .callDepthExceeded)) ∨ t.terminal = .resourceExhausted

/-- What the limit on the depth is for: calls up to it are not refused, deeper ones trap. -/
def RespectsDepth (maxCallDepth depth : ℕ)
    (r : Except RuntimeHostSignalV1 (RuntimeCallResultV1 ⊕ RuntimeCallContextV1 × RuntimeBackendV1))
    (t : HostState) : Prop :=
  (depth ≤ maxCallDepth → ¬ RefusedForDepth r t) ∧
    (maxCallDepth < depth → r = .ok (.inl (.trap .callDepthExceeded)) ∧ t.terminal = .running)

def chargeCall (charges : HostChargeScheduleV1) (spec : RuntimeCallSpecV1) : Host Unit := do
  let cost ← checkedHostCost (charges.nestedCallPreCost spec.input.length)
  chargeCommonWeight cost

section

variable {below depth : ℕ} {limits : CoordinatorLimitsV1} {s t : HostState}

theorem Level.advance {P : CommitmentDomainId → Bytes → Prop} {events : List ExecutionEventV1}
    (hs : Level below limits depth s) (h : Advance P events s t) : Level below limits depth t where
  inv := h.inv
  journal := h.journal.depth.trans hs.journal
  effects := h.effects.depth.trans hs.effects
  journal_limits := h.journal.base.limits.trans hs.journal_limits
  limits := h.effects.limits.trans hs.limits
  within := hs.within

theorem Level.quiet (hs : Level below limits depth s) (h : Quiet s t) :
    Level below limits depth t :=
  hs.advance (P := fun _ _ => False) (.quiet h hs.inv)

theorem Level.begun_iff (hs : Level below limits depth s) (hrunning : s.terminal = .running)
    (hframes : s.journal.totalFramesCreated < MAX_JOURNAL_FRAMES)
    (heffects : s.effects.totalFramesCreated < MAX_COORDINATOR_FRAMES_V1) :
    (∃ j e, Begun s j e) ↔
      depth + 1 < limits.maxCallDepth ∧ below + (depth + 1) ≤ MAX_JOURNAL_DEPTH := by
  have hmax : s.journal.limits.maxDepth = MAX_JOURNAL_DEPTH ∧
      s.journal.limits.maxFrames = MAX_JOURNAL_FRAMES := by
    rw [hs.journal_limits]
    exact ⟨rfl, rfl⟩
  constructor
  · rintro ⟨j, e, hbegun⟩
    obtain ⟨⟨hdepth, -⟩, -⟩ := beginFrame_eq_ok.mp hbegun.journal
    obtain ⟨⟨hdepth', -⟩, -⟩ := begin_eq_ok.mp hbegun.effects
    rw [hs.journal, hmax.1] at hdepth
    rw [hs.effects, hs.limits] at hdepth'
    omega
  · rintro ⟨hdepth, hdepth'⟩
    refine ⟨_, _, hrunning, beginFrame_eq_ok.mpr ⟨?_, rfl⟩, begin_eq_ok.mpr ⟨?_, rfl⟩⟩
    · rw [hs.journal, hmax.1, hmax.2]
      omega
    · rw [hs.effects, hs.limits]
      omega

theorem Level.begun {j j' : ExecutionJournalV1} {e : EffectStackV1}
    {P : CommitmentDomainId → Bytes → Prop} (hs : Level below limits depth s) (h : Begun s j e)
    (hgrown : Grown P j j') :
    Level below limits (depth + 1) { s with journal := j', effects := e } := by
  have habove := h.above hs.inv hgrown
  obtain ⟨frame, hjournal, -⟩ := habove.journal
  obtain ⟨frame', heffects, -⟩ := habove.effects
  obtain ⟨⟨hdepth, -⟩, -⟩ := begin_eq_ok.mp h.effects
  rw [hs.effects, hs.limits] at hdepth
  constructor
  case inv => exact habove.inv
  case within => omega
  case journal => rw [hjournal, List.length_cons, hs.journal, Nat.add_assoc]
  case effects => rw [heffects, List.length_cons, hs.effects, Nat.add_assoc]
  case journal_limits => exact habove.base.limits.trans hs.journal_limits
  case limits => exact habove.limits.trans hs.limits

theorem Begun.performs {j : ExecutionJournalV1} {e : EffectStackV1} (h : Begun s j e) :
    perform beginChildFrames s = (.ok (), { s with journal := j, effects := e }) := by
  rw [beginChildFrames, perform_bind_ok (perform_onJournal _ s), perform_update_ok h.journal]
  rw [perform_bind_ok (perform_onEffects _ _)]
  rw [perform_update_ok h.effects]
  rfl

end

section

variable {context : RuntimeCallContextV1} {spec : RuntimeCallSpecV1}

variable (spec) in
theorem deriveChildContext_exists (hdepth : context.parts.depth + 1 ≤ MAX_RUNTIME_CALL_DEPTH) :
    ∃ child, deriveChildContext context spec = .ok child := by
  have hparts : ∀ parts : RuntimeCallContextV1Parts, parts.depth = context.parts.depth + 1 →
      parts.targetMatchesDomain →
      ∃ child, (RuntimeCallContextV1.fromTrustedParts parts).mapError
        (fun _ => RuntimeTrapCodeV1.invalidCallTarget) = .ok child := by
    intro parts heq hmatches
    rw [RuntimeCallContextV1.fromTrustedParts, dif_pos (by omega), dif_pos hmatches]
    exact ⟨_, rfl⟩
  rcases spec.callable with hkind | hkind
  · simp only [deriveChildContext, hkind, ensure_ok hdepth, ok_bind, pure_bind]
    exact hparts _ rfl (by simp [RuntimeCallContextV1Parts.targetMatchesDomain, hkind])
  · simp only [deriveChildContext, hkind, ensure_ok hdepth, ok_bind, pure_bind]
    exact hparts _ rfl (by simp [RuntimeCallContextV1Parts.targetMatchesDomain, hkind])

variable [Crypto]

theorem transfer_trap (caller target : ExecutionAddress) (value : ℕ) :
    Ensures (transferAttachedValue caller target value) fun _ r _ =>
      FailsIn (fun e => e = .fatal ∨ e = .trap .attachedValueTransferFailed) r := by
  have hupdate : ∀ f : ExecutionJournalV1 → Except CoordinatorError ExecutionJournalV1,
      Ensures (update fun j => (f j).mapError fun _ => AttachedValueTransferErrorV1.fatal)
        fun _ r _ => FailsIn (fun e => e = .fatal ∨ e = .trap .attachedValueTransferFailed) r := by
    intro f j
    rw [perform_update]
    cases f j with
    | ok j' => exact .ok _
    | error e => exact .error (Or.inl rfl)
  rw [transferAttachedValue]
  by_cases hvalue : value = 0
  · rw [if_pos hvalue]
    exact fun _ => .ok _
  rw [if_neg hvalue]
  refine .bind_failsIn (fun _ => .ensure (Or.inr rfl)) fun _ => ?_
  refine .bind_failsIn (fun _ => .ok _) fun j => ?_
  refine .bind_failsIn (fun _ => .mapError fun _ => Or.inl rfl) fun callerBalance => ?_
  refine .bind_failsIn (fun _ => .ensure (Or.inr rfl)) fun _ => ?_
  by_cases hsame : caller = target
  · rw [if_pos hsame]
    exact fun _ => .ok _
  rw [if_neg hsame]
  refine .bind_failsIn (fun _ => .mapError fun _ => Or.inl rfl) fun targetBalance => ?_
  refine .bind_failsIn (fun _ => .orElse (Or.inl rfl)) fun nextCaller => ?_
  refine .bind_failsIn (fun _ => .orElse (Or.inl rfl)) fun nextTarget => ?_
  exact .bind_failsIn (hupdate _) fun _ => hupdate _

variable {dispatch : RuntimeDispatchTableV1} {child : RuntimeCallContextV1} {s t : HostState}
  {r : Except RuntimeHostSignalV1 (RuntimeCallResultV1 ⊕ RuntimeCallContextV1 × RuntimeBackendV1)}

theorem enterCall_refused_iff (hs : s.Inv) (hrunning : s.terminal = .running)
    (hcontext : deriveChildContext context spec = .ok child)
    (h : perform (enterCall dispatch context spec) s = (r, t)) :
    RefusedForDepth r t ↔ dispatch.factoryFor spec.target ≠ none ∧ ¬ ∃ j e, Begun s j e := by
  have hrun : perform ensureRunning s = (.ok (), s) := by
    rw [ensureRunning, perform_get_bind, ensure_ok hrunning, perform_check]
  rw [enterCall, perform_bind_ok hrun, hcontext] at h
  cases hfound : dispatch.factoryFor spec.target with
  | none =>
    rw [hfound] at h
    cases h
    simp [RefusedForDepth, hrunning]
  | some factory =>
    rw [hfound] at h
    rcases beginChildFrames_cases hs hrunning with ⟨j, e, hbegun, hbegin⟩ | ⟨u, hu, hterminal, hbegin⟩
    case inr =>
      have hnone : ¬ ∃ j e, Begun s j e := by
        rintro ⟨j, e, hbegun⟩
        rw [hbegun.performs] at hbegin
        cases hbegin
      grind [perform_bind_error, RefusedForDepth]
    have hsome : ∃ j e, Begun s j e := ⟨j, e, hbegun⟩
    simp only [hsome, not_true_eq_false, and_false, iff_false]
    rw [perform_bind_ok hbegin, perform_bind_ok (perform_onJournal _ _)] at h
    cases htransfer : perform (transferAttachedValue context.parts.target spec.target spec.value) j with
    | mk result j' =>
      have hcode := transfer_trap context.parts.target spec.target spec.value j
      have habove := hbegun.above hs ((transfer_moves htransfer).grown
        (beginFrame_ok hs.journal hbegun.journal).1)
      rw [htransfer] at h hcode
      rcases result with (code | _) | _
      · dsimp only at h
        rw [perform_bind_ok (rollbackChildFrames_ok habove hs)] at h
        cases h
        have hcode : code = .attachedValueTransferFailed := by simpa using hcode _ rfl
        simp [RefusedForDepth, hcode, HostState.dropTo, hrunning]
      · dsimp only at h
        cases h
        rintro (hr | ht)
        · cases hr
        · cases ht
      · cases h
        simp [RefusedForDepth, hrunning]

end

section

variable [Crypto] {charges : HostChargeScheduleV1} {dispatch : RuntimeDispatchTableV1}
  {context child : RuntimeCallContextV1} {spec : RuntimeCallSpecV1} {factory : RuntimeBackendV1}
  {below : ℕ} {limits : CoordinatorLimitsV1} {s t : HostState}

theorem Level.call (hs : Level below limits context.parts.depth s)
    (h : perform (startCall charges dispatch context spec) s = (.ok (.inr (child, factory)), t)) :
    Level below limits child.parts.depth t := by
  rw [(deriveChildContext_ok (startCall_context h).1).1]
  rcases startCall_cases hs.inv h with ⟨-, _, hsignal⟩ | ⟨s₁, hquiet, hentry⟩
  · cases hsignal
  · have hs₁ := hs.quiet hquiet
    cases hentry with
    | entered _ _ hbegun hmoves =>
      exact hs₁.begun hbegun (hmoves.grown (beginFrame_ok hs₁.inv.journal hbegun.journal).1)

theorem Run.level {program : RuntimeProgram} {log : Log}
    {result : Except RuntimeBackendFailureV1 RuntimeCallResultV1}
    (h : Run charges dispatch context program s log result t)
    (hs : Level below limits context.parts.depth s) :
    ∀ p ∈ log.points, Level below limits p.context.parts.depth p.before := by
  induction h with
  | done => simp [Log.empty]
  | op hop h rest ih =>
    exact List.forall_mem_cons.mpr ⟨hs, ih (hs.advance (op_advance hs.inv hop h))⟩
  | stopped h rest ih =>
    have hrestored := startCall_restored hs.inv h (by simp)
    exact List.forall_mem_cons.mpr ⟨hs, ih (hs.advance (P := fun _ _ => False) hrestored.advance)⟩
  | @refused _ _ _ _ t u _ refusal _ _ _ h hcopy rest ih =>
    have hquiet : Quiet t u := by
      have := copyResult_quiet charges refusal t
      rwa [hcopy] at this
    have hrestored := (startCall_restored hs.inv h (by simp)).quiet hquiet
    exact List.forall_mem_cons.mpr ⟨hs, ih (hs.advance (P := fun _ _ => False) hrestored.advance)⟩
  | @call context _ _ _ _ s _ _ _ s₄ _ _ _ _ _ _ _ h hinner hleave hcopy rest ihinner ihrest =>
    have hchild := hs.call h
    have hafter : Level below limits context.parts.depth s₄ := by
      rcases (call_cases hs.inv h (hinner.advance hchild.inv) hleave hcopy).2 with
        ⟨-, hadvance⟩ | ⟨-, hrestored⟩
      · exact hs.advance hadvance
      · exact hs.advance (P := fun _ _ => False) hrestored.advance
    refine List.forall_mem_cons.mpr ⟨hs, fun p hp => ?_⟩
    rcases List.mem_append.mp hp with hp | hp
    · exact ihinner hchild p hp
    · exact ihrest hafter p hp

omit [Crypto] in
theorem chargeCall_ok (h : perform (chargeCall charges spec) s = (.ok (), t)) :
    Quiet s t ∧ t.terminal = .running := by
  obtain ⟨cost, s₁, hcost, hcharge⟩ := perform_bind_eq_ok.mp h
  have hquiet := checkedHostCost_quiet (charges.nestedCallPreCost spec.input.length) s
  have hquiet' := chargeCommonWeight_quiet cost s₁
  rw [hcost] at hquiet
  rw [hcharge] at hquiet'
  refine ⟨hquiet.trans hquiet', ?_⟩
  obtain ⟨_, s₂, hensure, hmeter⟩ := perform_bind_eq_ok.mp hcharge
  have hrunning : s₁.terminal = .running := ensure_eq_ok.mp (Prod.mk.inj hensure).1
  obtain rfl := (Prod.mk.inj hensure).2
  rw [perform_chargeMeter] at hmeter
  cases hcharged : s₁.meter.chargeCommon cost with
  | mk r meter =>
    rw [hcharged] at hmeter
    cases r with
    | ok _ =>
      cases hmeter
      exact hrunning
    | error e => cases hmeter

/-- A call keeps to the limit exactly when the frames for it are within the limits. -/
theorem Level.respects_iff (hs : Level below limits context.parts.depth s)
    (hrunning : s.terminal = .running)
    (hframes : s.journal.totalFramesCreated < MAX_JOURNAL_FRAMES)
    (heffects : s.effects.totalFramesCreated < MAX_COORDINATOR_FRAMES_V1)
    {r : Except RuntimeHostSignalV1 (RuntimeCallResultV1 ⊕ RuntimeCallContextV1 × RuntimeBackendV1)}
    (h : perform (enterCall dispatch context spec) s = (r, t)) :
    RespectsDepth limits.maxCallDepth (context.parts.depth + 1) r t ↔
      dispatch.factoryFor spec.target = none ∨
        (context.parts.depth + 1 < limits.maxCallDepth ∧
          below + (context.parts.depth + 1) ≤ MAX_JOURNAL_DEPTH) := by
  have hwithin := hs.within
  have hmax := limits.bounds.1
  have hdepth : context.parts.depth + 1 ≤ MAX_RUNTIME_CALL_DEPTH := by
    rw [MAX_RUNTIME_CALL_DEPTH]
    omega
  obtain ⟨child, hcontext⟩ := deriveChildContext_exists spec hdepth
  have hrefused := enterCall_refused_iff hs.inv hrunning hcontext h
  rw [hs.begun_iff hrunning hframes heffects] at hrefused
  have hnot : RespectsDepth limits.maxCallDepth (context.parts.depth + 1) r t ↔
      ¬ RefusedForDepth r t :=
    ⟨fun hrespects => hrespects.1 hwithin, fun hnot => ⟨fun _ => hnot, fun hlt => by omega⟩⟩
  rw [hnot, hrefused, not_and_or, not_not, not_not]

end

section

variable [Crypto] {journal : ExecutionJournalV1} {book : EscrowBookV1}
  {validator : FundingSourceValidatorV1} {request : FundingValidationRequestV1}
  {runtime : TransactionRuntimeV1}

/-- The funding of a transaction leaves the frames and the limits of its journal. -/
theorem openBoundValidatedEscrow_frames {escrow : ValidatedEscrowV1} {funded : ExecutionJournalV1}
    {opened : EscrowBookV1} (hj : journal.Inv)
    (h : openBoundValidatedEscrow journal book validator request = .ok (escrow, funded, opened)) :
    funded.Inv ∧ funded.frames.length = journal.frames.length ∧ funded.limits = journal.limits := by
  obtain ⟨-, _, -, -, -, -, -, hfunded⟩ := openBoundValidatedEscrow_ok h
  have hgrown := funding_grown hj hfunded
  exact ⟨hgrown.inv, hgrown.depth, hgrown.base.limits⟩

theorem beginTransaction_eq_ok {escrow : ValidatedEscrowV1} {opened : EscrowBookV1}
    {start : HostState} :
    beginTransaction journal book validator request runtime = .ok (escrow, opened, start) ↔
      validateTopLevelContext journal request runtime.topLevelContext = .ok () ∧
      ∃ funded, openBoundValidatedEscrow journal book validator request =
          .ok (escrow, funded, opened) ∧
        Begun (baseState runtime funded) start.journal start.effects ∧
        start = { baseState runtime funded with journal := start.journal, effects := start.effects } := by
  simp only [beginTransaction, bind_eq_ok, mapError_eq_ok, pure_eq_ok, Prod.exists, Prod.mk.injEq,
    exists_unit]
  constructor
  · rintro ⟨hcontext, _, funded, _, hopened, begun, hbegun, effects, heffects, rfl, rfl, rfl⟩
    exact ⟨hcontext, funded, hopened, ⟨rfl, hbegun, heffects⟩, rfl⟩
  · rintro ⟨hcontext, funded, hopened, hbegun, hstart⟩
    exact ⟨hcontext, _, funded, _, hopened, _, hbegun.journal, _, hbegun.effects, rfl, rfl,
      hstart.symm⟩

omit [Crypto] in
variable (runtime) in
theorem level_baseState (hj : journal.Inv) (hlimits : journal.limits = .default) :
    Level journal.frames.length runtime.limits 0 (baseState runtime journal) where
  inv := ⟨hj, effects_new_inv runtime.limits⟩
  within := by
    have := runtime.limits.valid
    omega
  journal := rfl
  effects := rfl
  journal_limits := hlimits
  limits := rfl

theorem beginTransaction_level {escrow : ValidatedEscrowV1} {opened : EscrowBookV1}
    {start : HostState} (hj : journal.Inv) (hlimits : journal.limits = .default)
    (h : beginTransaction journal book validator request runtime = .ok (escrow, opened, start)) :
    Level journal.frames.length runtime.limits runtime.topLevelContext.parts.depth start := by
  obtain ⟨hcontext, funded, hopened, hbegun, hstart⟩ := beginTransaction_eq_ok.mp h
  obtain ⟨hinv, hlength, hsame⟩ := openBoundValidatedEscrow_frames hj hopened
  have hbase : Level journal.frames.length runtime.limits 0 (baseState runtime funded) :=
    hlength ▸ level_baseState _ hinv (hsame.trans hlimits)
  have hdepth : runtime.topLevelContext.parts.depth = 0 + 1 := by
    have := ensure_eq_ok.mp hcontext
    tauto
  rw [hstart, hdepth]
  exact hbase.begun hbegun (.of_eq (P := fun _ _ => False)
    (beginFrame_ok hbase.inv.journal hbegun.journal).1 rfl)

variable (journal book validator request runtime) in
/-- A call keeps to the limit on the depth exactly when it is below the limit. -/
theorem call_depth_limit_iff (hjournal : journal.Built) (hlimits : journal.limits = .default) :
    (∀ escrow funded opened,
      validateTopLevelContext journal request runtime.topLevelContext = .ok () →
      openBoundValidatedEscrow journal book validator request = .ok (escrow, funded, opened) →
      funded.totalFramesCreated < MAX_JOURNAL_FRAMES →
      ((∃ started, beginTransaction journal book validator request runtime = .ok started) ↔
        DepthFits journal runtime.limits 1)) ∧
    ∀ escrow opened start log result t,
      beginTransaction journal book validator request runtime = .ok (escrow, opened, start) →
      Run runtime.charges runtime.dispatch runtime.topLevelContext (topProgram runtime) start log
        result t →
      ∀ p ∈ log.points, ∀ spec, p.op = .call spec →
      ∀ s, perform (chargeCall runtime.charges spec) p.before = (.ok (), s) →
      s.journal.totalFramesCreated < MAX_JOURNAL_FRAMES →
      s.effects.totalFramesCreated < MAX_COORDINATOR_FRAMES_V1 →
      ∀ r u, perform (enterCall runtime.dispatch p.context spec) s = (r, u) →
        (RespectsDepth runtime.limits.maxCallDepth (p.context.parts.depth + 1) r u ↔
          runtime.dispatch.factoryFor spec.target = none ∨
            DepthFits journal runtime.limits (p.context.parts.depth + 1)) := by
  constructor
  · intro escrow funded opened hcontext hopened hframes
    obtain ⟨hinv, hlength, hsame⟩ := openBoundValidatedEscrow_frames hjournal.inv hopened
    have hbase := level_baseState runtime hinv (hsame.trans hlimits)
    rw [DepthFits, ← hlength]
    refine Iff.trans ?_ (hbase.begun_iff rfl hframes (show 1 < MAX_COORDINATOR_FRAMES_V1 by decide))
    constructor
    · rintro ⟨⟨_, _, start⟩, hbegins⟩
      obtain ⟨-, _, hopened', hbegun, -⟩ := beginTransaction_eq_ok.mp hbegins
      rw [hopened, Except.ok.injEq, Prod.mk.injEq, Prod.mk.injEq] at hopened'
      obtain ⟨-, rfl, -⟩ := hopened'
      exact ⟨_, _, hbegun⟩
    · rintro ⟨j, e, hbegun⟩
      exact ⟨(escrow, opened, { baseState runtime funded with journal := j, effects := e }),
        beginTransaction_eq_ok.mpr ⟨hcontext, funded, hopened, hbegun, rfl⟩⟩
  · intro escrow opened start log result t hbegins hrun p hp spec _ s hcharge hframes heffects r u henter
    obtain ⟨hquiet, hrunning⟩ := chargeCall_ok hcharge
    have hlevel := hrun.level (beginTransaction_level hjournal.inv hlimits hbegins) p hp
    exact (hlevel.quiet hquiet).respects_iff hrunning hframes heffects henter

theorem Run.first_call {charges : HostChargeScheduleV1} {dispatch : RuntimeDispatchTableV1}
    {context : RuntimeCallContextV1} {spec : RuntimeCallSpecV1}
    {next : Except RuntimeHostSignalV1 RuntimeCallResultV1 → RuntimeProgram} {s t : HostState}
    {log : Log} {result : Except RuntimeBackendFailureV1 RuntimeCallResultV1}
    (h : Run charges dispatch context (.ask (.call spec) next) s log result t) :
    ∃ after, ⟨context, .call spec, s, after⟩ ∈ log.points := by
  cases h with
  | op hop _ _ => cases hop
  | stopped _ _ => exact ⟨_, List.mem_cons_self ..⟩
  | refused _ _ _ => exact ⟨_, List.mem_cons_self ..⟩
  | call _ _ _ _ _ => exact ⟨_, List.mem_cons_self ..⟩

end

namespace Sample

open Oregon.Sample Oregon.ContractState.Sample

def coin : FundingCapabilityV1 := ⟨.nativeUtxo, payer, 1, 2, 0, 3, capability.available_le⟩

def funded : FundingValidationRequestV1 where
  chainId := 1
  height := 2
  txid := 4
  executionDomain := .wasm
  principal := alice
  payer := payer
  authorizationCommitment := 3
  sourceKind := .nativeUtxo
  sourceCommitment := 1
  sourceSequence := 0
  feeTerms := terms

/-- The one calls the other, and succeeds whatever comes of that. -/
def caller : RuntimeBackendV1 := fun _ =>
  .ask (.call (callBob 0 false)) fun _ => .done (.ok (.success []))

/-- A transaction of the two, with a limit on the depth of its calls. -/
def nested (limits : CoordinatorLimitsV1) : TransactionRuntimeV1 where
  topLevelContext := aliceContext
  meter := host.meter
  limits := limits
  charges := noCharges
  dispatch := ⟨(Std.ExtTreeMap.insert ∅ bob.toBytes idle).insert alice.toBytes caller⟩

theorem upTo_valid {maxCallDepth : ℕ} (h : 1 ≤ maxCallDepth ∧ maxCallDepth ≤ 64) :
    ¬ (maxCallDepth = 0 ∨ 256 = 0 ∨ 2097152 = 0 ∨ MAX_RUNTIME_CALL_DEPTH < maxCallDepth ∨
      MAX_EXECUTION_EVENTS_V1 < 256 ∨ MAX_COORDINATOR_EFFECT_BYTES_V1 < 2097152) := by
  simp only [MAX_RUNTIME_CALL_DEPTH, MAX_EXECUTION_EVENTS_V1, MAX_COORDINATOR_EFFECT_BYTES_V1]
  omega

def upTo (maxCallDepth : ℕ) (h : 1 ≤ maxCallDepth ∧ maxCallDepth ≤ 64) : CoordinatorLimitsV1 :=
  ⟨maxCallDepth, 256, 2097152, upTo_valid h⟩

def started (limits : CoordinatorLimitsV1) : HostState :=
  match beginTransaction opened single (fun _ => .ok coin) funded (nested limits) with
  | .ok (_, _, s) => s
  | .error _ => host

def calling (limits : CoordinatorLimitsV1) : HostState :=
  (perform (chargeCall noCharges (callBob 0 false)) (started limits)).2

theorem started_begins (limits : CoordinatorLimitsV1)
    (h : (beginTransaction opened single (fun _ => .ok coin) funded (nested limits)).isOk = true) :
    ∃ escrow book, beginTransaction opened single (fun _ => .ok coin) funded (nested limits) =
      .ok (escrow, book, started limits) := by
  unfold started
  cases hbegin : beginTransaction opened single (fun _ => .ok coin) funded (nested limits) with
  | error e =>
    rw [hbegin] at h
    cases h
  | ok begun => grind

end Sample

open Oregon.Sample Oregon.ContractState.Sample Oregon.Execution.Sample in
/-- A call at the limit exhausts the transaction; at a limit of one there is no transaction. -/
theorem call_at_limit_exhausts :
    (∃ escrow book, beginTransaction opened single (fun _ => .ok coin) funded
        (nested (upTo 2 (by decide))) = .ok (escrow, book, started (upTo 2 (by decide)))) ∧
      perform (chargeCall noCharges (callBob 0 false)) (started (upTo 2 (by decide))) =
        (.ok (), calling (upTo 2 (by decide))) ∧
      ¬ RespectsDepth 2 (aliceContext.parts.depth + 1)
        (perform (enterCall (nested (upTo 2 (by decide))).dispatch aliceContext (callBob 0 false))
          (calling (upTo 2 (by decide)))).1
        (perform (enterCall (nested (upTo 2 (by decide))).dispatch aliceContext (callBob 0 false))
          (calling (upTo 2 (by decide)))).2 ∧
      (executeTopLevel (nested (upTo 2 (by decide))) (started (upTo 2 (by decide)))).2.terminal =
        .resourceExhausted ∧
      (beginTransaction opened single (fun _ => .ok coin) funded
        (nested (upTo 1 (by decide)))).isOk = false := by
  refine ⟨started_begins _ (by decide +kernel), Prod.ext (by decide +kernel) rfl, ?_,
    by decide +kernel, by decide +kernel⟩
  rintro ⟨hwithin, -⟩
  exact hwithin (by decide) (Or.inr (by decide +kernel))

open Oregon.Sample Oregon.ContractState.Sample Oregon.Execution.Sample in
theorem call_depth_limit_iff_three :
    RespectsDepth 3 (aliceContext.parts.depth + 1)
      (perform (enterCall (nested (upTo 3 (by decide))).dispatch aliceContext (callBob 0 false))
        (calling (upTo 3 (by decide)))).1
      (perform (enterCall (nested (upTo 3 (by decide))).dispatch aliceContext (callBob 0 false))
        (calling (upTo 3 (by decide)))).2 := by
  obtain ⟨escrow, book, hbegins⟩ := started_begins (upTo 3 (by decide)) (by decide +kernel)
  obtain ⟨log, result, t, hrun, -⟩ :=
    executeTopLevel_run (nested (upTo 3 (by decide))) (started (upTo 3 (by decide)))
  have hprogram : topProgram (nested (upTo 3 (by decide))) = caller aliceContext := by
    have hfound : (nested (upTo 3 (by decide))).dispatch.factoryFor
        (nested (upTo 3 (by decide))).topLevelContext.parts.target = some caller :=
      Std.ExtTreeMap.getElem?_insert_self
    rw [topProgram, hfound]
    rfl
  obtain ⟨after, hpoint⟩ := Run.first_call (hprogram ▸ hrun)
  have hbuilt : opened.Built :=
    ⟨nothing, context, [⟨.wasm, 5⟩, ⟨.executionAccounting, 6⟩], .default, opened, [], rfl, rfl⟩
  have hcharged : perform (chargeCall noCharges (callBob 0 false)) (started (upTo 3 (by decide))) =
      (.ok (), calling (upTo 3 (by decide))) := Prod.ext (by decide +kernel) rfl
  have hfits : DepthFits opened (upTo 3 (by decide)) (aliceContext.parts.depth + 1) :=
    ⟨by decide, by decide⟩
  exact ((call_depth_limit_iff opened single (fun _ => .ok coin) funded
    (nested (upTo 3 (by decide))) hbuilt rfl).2 escrow book _ log result t hbegins hrun _ hpoint _ rfl
    (calling (upTo 3 (by decide))) hcharged (by decide +kernel) (by decide +kernel) _ _ rfl).mpr
    (Or.inr hfits)

end Oregon.Execution
