import Oregon.Sanity.NestedCalls

/-! An execution as a history: every operation that a backend has performed, in this and in
nested calls, with what is left of the events and transfers once the calls that failed
are rolled back. Every execution of the host has one. -/

namespace Oregon.Execution

open Lib ContractState

/-- An operation of a backend, and the states before and after it. -/
structure Point where
  context : RuntimeCallContextV1
  op : RuntimeHostOp
  before : HostState
  after : HostState

/-- What happened: all operations, and the events and transfers of the calls that were kept. -/
structure Log where
  points : List Point
  events : List ExecutionEventV1
  transfers : List Transfer

namespace Log

def empty : Log := ⟨[], [], []⟩

/-- An operation that emits some events, before the rest. -/
def op (point : Point) (events : List ExecutionEventV1) (rest : Log) : Log :=
  ⟨point :: rest.points, events ++ rest.events, rest.transfers⟩

/-- A call that got to its backend, before the rest. -/
def call (point : Point) (kept : Bool) (transfer : Transfer) (inner rest : Log) : Log :=
  ⟨point :: inner.points ++ rest.points, (if kept then inner.events else []) ++ rest.events,
    (if kept then transfer :: inner.transfers else []) ++ rest.transfers⟩

end Log

/-- The places that can have been written: those of the target's state, unless that is read
only, and the balances between which value has moved. -/
def touched (readOnly : Bool) (transfers : List Transfer) (domain : CommitmentDomainId)
    (key : Bytes) : Prop :=
  (domain = .wasm ∧ readOnly = false) ∨ ∃ x ∈ transfers, x.touches domain key

theorem touched_mono {readOnly readOnly' : Bool} {transfers transfers' : List Transfer}
    (hreadOnly : readOnly = false → readOnly' = false) (hsub : transfers ⊆ transfers')
    (domain : CommitmentDomainId) (key : Bytes) (h : touched readOnly transfers domain key) :
    touched readOnly' transfers' domain key := by
  rcases h with ⟨hwasm, h⟩ | ⟨x, hx, htouches⟩
  · exact Or.inl ⟨hwasm, hreadOnly h⟩
  · exact Or.inr ⟨x, hsub hx, htouches⟩

/-- A call is kept when it returns a success. -/
def isKept : Except RuntimeHostSignalV1 RuntimeCallResultV1 → Bool
  | .ok (.success _) => true
  | _ => false

theorem isKept_eq_true {r : Except RuntimeHostSignalV1 RuntimeCallResultV1} :
    isKept r = true ↔ ∃ data, r = .ok (.success data) := by
  unfold isKept
  split <;> simp_all

section

variable [Crypto] (charges : HostChargeScheduleV1) (dispatch : RuntimeDispatchTableV1)

/-- A call up to its backend. -/
def startCall (context : RuntimeCallContextV1) (spec : RuntimeCallSpecV1) :
    Host (RuntimeCallResultV1 ⊕ RuntimeCallContextV1 × RuntimeBackendV1) := do
  let cost ← checkedHostCost (charges.nestedCallPreCost spec.input.length)
  chargeCommonWeight cost
  enterCall dispatch context spec

/-- The call gets to its backend: it is not refused, and its value is transferred. -/
def Enters (context : RuntimeCallContextV1) (spec : RuntimeCallSpecV1) (s : HostState) : Prop :=
  ∃ child factory t,
    perform (startCall charges dispatch context spec) s = (.ok (.inr (child, factory)), t)

omit [Crypto] in
/-- What a call returns is charged for. -/
def copyResult (result : RuntimeCallResultV1) : Host RuntimeCallResultV1 :=
  match result.returnData with
  | none => pure result
  | some returnData => do
    let copyCost ← checkedHostCost (charges.nestedCallReturnCost returnData.length)
    chargeCommonWeight copyCost
    pure result

omit [Crypto] in
/-- A call from there on, where `run` runs the backend of a context. -/
def finishCall (run : RuntimeCallContextV1 → RuntimeBackendV1 →
      Stateful HostState RuntimeBackendFailureV1 RuntimeCallResultV1) :
    RuntimeCallResultV1 ⊕ RuntimeCallContextV1 × RuntimeBackendV1 → Host RuntimeCallResultV1
  | .inl result => copyResult charges result
  | .inr (child, factory) => do
    let backendResult ← attempt (run child factory)
    let result ← leaveCall backendResult
    copyResult charges result

theorem hostCall_eq (run : RuntimeCallContextV1 → RuntimeBackendV1 →
      Stateful HostState RuntimeBackendFailureV1 RuntimeCallResultV1)
    (context : RuntimeCallContextV1) (spec : RuntimeCallSpecV1) :
    hostCall charges (executeNestedCall dispatch run context) spec =
      startCall charges dispatch context spec >>= finishCall charges run := by
  unfold hostCall executeNestedCall startCall
  simp only [bind_assoc]
  refine bind_congr fun cost => bind_congr fun _ => bind_congr fun entered => ?_
  cases entered with
  | inl result => rw [pure_bind]; rfl
  | inr entered => simp only [bind_assoc]; rfl

/-- The execution of a backend, with its log. -/
inductive Run : RuntimeCallContextV1 → RuntimeProgram → HostState → Log →
    Except RuntimeBackendFailureV1 RuntimeCallResultV1 → HostState → Prop where
  | done {context : RuntimeCallContextV1} {s : HostState}
      {result : Except RuntimeBackendFailureV1 RuntimeCallResultV1} :
      Run context (.done result) s .empty result s
  | op {context : RuntimeCallContextV1} {op : RuntimeHostOp}
      {next : Except RuntimeHostSignalV1 op.Answer → RuntimeProgram} {s t u : HostState}
      {execute : RuntimeCallSpecV1 → Host RuntimeCallResultV1}
      {answer : Except RuntimeHostSignalV1 op.Answer} {log : Log}
      {result : Except RuntimeBackendFailureV1 RuntimeCallResultV1} (hop : op.isCall = false)
      (h : perform (hostOp charges context execute op) s = (answer, t))
      (rest : Run context (next answer) t log result u) :
      Run context (.ask op next) s (log.op ⟨context, op, s, t⟩ (emitted context op answer)) result u
  | stopped {context : RuntimeCallContextV1} {spec : RuntimeCallSpecV1}
      {next : Except RuntimeHostSignalV1 RuntimeCallResultV1 → RuntimeProgram} {s t u : HostState}
      {signal : RuntimeHostSignalV1} {log : Log}
      {result : Except RuntimeBackendFailureV1 RuntimeCallResultV1}
      (h : perform (startCall charges dispatch context spec) s = (.error signal, t))
      (rest : Run context (next (.error signal)) t log result u) :
      Run context (.ask (.call spec) next) s (log.op ⟨context, .call spec, s, t⟩ []) result u
  | refused {context : RuntimeCallContextV1} {spec : RuntimeCallSpecV1}
      {next : Except RuntimeHostSignalV1 RuntimeCallResultV1 → RuntimeProgram} {s t u v : HostState}
      {refusal : RuntimeCallResultV1} {answer : Except RuntimeHostSignalV1 RuntimeCallResultV1}
      {log : Log} {result : Except RuntimeBackendFailureV1 RuntimeCallResultV1}
      (h : perform (startCall charges dispatch context spec) s = (.ok (.inl refusal), t))
      (hcopy : perform (copyResult charges refusal) t = (answer, u))
      (rest : Run context (next answer) u log result v) :
      Run context (.ask (.call spec) next) s (log.op ⟨context, .call spec, s, u⟩ []) result v
  | call {context child : RuntimeCallContextV1} {spec : RuntimeCallSpecV1}
      {factory : RuntimeBackendV1}
      {next : Except RuntimeHostSignalV1 RuntimeCallResultV1 → RuntimeProgram}
      {s s₁ s₂ s₃ s₄ t : HostState} {left answer : Except RuntimeHostSignalV1 RuntimeCallResultV1}
      {inner log : Log} {backendResult result : Except RuntimeBackendFailureV1 RuntimeCallResultV1}
      (h : perform (startCall charges dispatch context spec) s = (.ok (.inr (child, factory)), s₁))
      (hinner : Run child (factory child) s₁ inner backendResult s₂)
      (hleave : perform (leaveCall backendResult) s₂ = (left, s₃))
      (hcopy : perform (check left >>= copyResult charges) s₃ = (answer, s₄))
      (rest : Run context (next answer) s₄ log result t) :
      Run context (.ask (.call spec) next) s
        (.call ⟨context, .call spec, s, s₄⟩ (isKept left)
          ⟨context.parts.target, spec.target, spec.value⟩ inner log) result t

end

theorem deriveChildContext_ok {parent child : RuntimeCallContextV1} {spec : RuntimeCallSpecV1}
    (h : deriveChildContext parent spec = .ok child) :
    child.parts.depth = parent.parts.depth + 1 ∧
      child.parts.readOnly = (parent.parts.readOnly || spec.readOnly) ∧
      child.parts.target = spec.target := by
  have hparts : ∀ {parts : RuntimeCallContextV1Parts},
      RuntimeCallContextV1.fromTrustedParts parts = .ok child → child.parts = parts := by
    intro parts h
    unfold RuntimeCallContextV1.fromTrustedParts at h
    split_ifs at h
    cases h
    rfl
  cases hkind : spec.target.kind <;>
    simp only [deriveChildContext, hkind, bind_eq_ok, pure_eq_ok, exists_eq_left', mapError_eq_ok,
      throw_ne_ok, false_and, exists_false, and_false, exists_const, ensure_eq_ok] at h
  all_goals
    grind

section

variable [Crypto] {charges : HostChargeScheduleV1} {dispatch : RuntimeDispatchTableV1}

theorem startCall_context {parent child : RuntimeCallContextV1} {spec : RuntimeCallSpecV1}
    {factory : RuntimeBackendV1} {s t : HostState}
    (h : perform (startCall charges dispatch parent spec) s = (.ok (.inr (child, factory)), t)) :
    deriveChildContext parent spec = .ok child ∧ dispatch.factoryFor spec.target = some factory := by
  simp only [startCall, enterCall, perform_bind_eq_ok] at h
  obtain ⟨_, _, -, _, _, -, _, _, -, h⟩ := h
  cases hcontext : deriveChildContext parent spec with
  | error code => simp [hcontext] at h
  | ok child' =>
    cases hfound : dispatch.factoryFor spec.target with
    | none => simp [hcontext, hfound] at h
    | some factory' =>
      simp only [hcontext, hfound, perform_bind_eq_ok] at h
      obtain ⟨_, _, -, transfer, _, -, h⟩ := h
      rcases transfer with (_ | _) | _
      case ok => simp_all
      all_goals
        simp only [perform_bind_eq_ok] at h
        obtain ⟨_, _, -, h⟩ := h
        cases h

/-- A call has its place in the log, when the backends below it run to their end. -/
theorem run_call {run : RuntimeCallContextV1 → RuntimeBackendV1 →
      Stateful HostState RuntimeBackendFailureV1 RuntimeCallResultV1} {context : RuntimeCallContextV1}
    (hrun : ∀ child factory s, child.parts.depth = context.parts.depth + 1 → ∃ log,
      Run charges dispatch child (factory child) s log (perform (run child factory) s).1
        (perform (run child factory) s).2)
    {spec : RuntimeCallSpecV1} {s t u : HostState}
    {answer : Except RuntimeHostSignalV1 RuntimeCallResultV1}
    {next : Except RuntimeHostSignalV1 RuntimeCallResultV1 → RuntimeProgram} {log : Log}
    {result : Except RuntimeBackendFailureV1 RuntimeCallResultV1}
    (h : perform (hostCall charges (executeNestedCall dispatch run context) spec) s = (answer, t))
    (rest : Run charges dispatch context (next answer) t log result u) :
    ∃ log, Run charges dispatch context (.ask (.call spec) next) s log result u := by
  rw [hostCall_eq] at h
  cases hstart : perform (startCall charges dispatch context spec) s with
  | mk entered s₁ =>
    rcases entered with signal | (refusal | ⟨child, factory⟩)
    · rw [perform_bind_error hstart] at h
      cases h
      exact ⟨_, .stopped hstart rest⟩
    · rw [perform_bind_ok hstart] at h
      exact ⟨_, .refused hstart h rest⟩
    · rw [perform_bind_ok hstart, finishCall, perform_bind_ok (perform_attempt ..)] at h
      have hdepth : child.parts.depth = context.parts.depth + 1 :=
        (deriveChildContext_ok (startCall_context hstart).1).1
      obtain ⟨inner, hinner⟩ := hrun child factory s₁ hdepth
      generalize perform (run child factory) s₁ = ended at h hinner
      obtain ⟨backendResult, s₂⟩ := ended
      cases hleave : perform (leaveCall backendResult) s₂ with
      | mk left s₃ =>
        have hcopy : perform (check left >>= copyResult charges) s₃ = (answer, t) := by
          cases left with
          | ok result => rwa [perform_bind_ok hleave] at h
          | error signal => rwa [perform_bind_error hleave] at h
        exact ⟨_, .call hstart hinner hleave hcopy rest⟩

theorem run_program {run : RuntimeCallContextV1 → RuntimeBackendV1 →
      Stateful HostState RuntimeBackendFailureV1 RuntimeCallResultV1} {context : RuntimeCallContextV1}
    (hrun : ∀ child factory s, child.parts.depth = context.parts.depth + 1 → ∃ log,
      Run charges dispatch child (factory child) s log (perform (run child factory) s).1
        (perform (run child factory) s).2)
    (program : RuntimeProgram) (s : HostState) : ∃ log,
      Run charges dispatch context program s log
        (perform (program.run (hostOp charges context (executeNestedCall dispatch run context))) s).1
        (perform (program.run (hostOp charges context (executeNestedCall dispatch run context))) s).2 := by
  induction program generalizing s with
  | done result => exact ⟨.empty, .done⟩
  | ask op next ih =>
    cases hop : op.isCall with
    | false =>
      obtain ⟨log, hlog⟩ := ih _ _
      exact ⟨_, .op hop rfl hlog⟩
    | true =>
      cases op with
      | call spec =>
        obtain ⟨log, hlog⟩ := ih _ _
        exact run_call hrun rfl hlog
      | _ => cases hop

theorem runBackendAt_run (levels : ℕ) (context : RuntimeCallContextV1) (factory : RuntimeBackendV1)
    (s : HostState) (hlevels : levels = MAX_RUNTIME_CALL_DEPTH + 1 - context.parts.depth) : ∃ log,
      Run charges dispatch context (factory context) s log
        (perform (runBackendAt charges dispatch levels context factory) s).1
        (perform (runBackendAt charges dispatch levels context factory) s).2 := by
  induction levels generalizing context factory s with
  | zero =>
    have := context.depth_mem.2
    omega
  | succ levels ih =>
    exact run_program (fun child factory s hdepth => ih child factory s (by omega)) (factory context) s

variable (charges dispatch) in
theorem runBackend_run (context : RuntimeCallContextV1) (factory : RuntimeBackendV1)
    (s : HostState) : ∃ log, Run charges dispatch context (factory context) s log
      (perform (runBackend charges dispatch context factory) s).1
      (perform (runBackend charges dispatch context factory) s).2 :=
  runBackendAt_run _ context factory s rfl

omit [Crypto] in
theorem copyResult_quiet (charges : HostChargeScheduleV1) (result : RuntimeCallResultV1) :
    Lib.Follows Quiet (copyResult charges result) := by
  unfold copyResult
  split
  · exact .refl
  · exact quiet_absorbs.bind (checkedHostCost_quiet _) fun _ =>
      quiet_absorbs.bind (chargeCommonWeight_quiet _) fun _ => .refl

omit [Crypto] in
theorem copyAnswer_quiet (charges : HostChargeScheduleV1) (answer : Except RuntimeHostSignalV1 RuntimeCallResultV1) :
    Lib.Follows Quiet (check answer >>= copyResult charges) := by
  cases answer with
  | ok result => exact quiet_absorbs.bind (fun s => .refl s) fun _ => copyResult_quiet charges _
  | error signal => exact fun s => by rw [perform_check_error]; exact .refl s

theorem startCall_cases {context : RuntimeCallContextV1} {spec : RuntimeCallSpecV1} {s t : HostState}
    {r : Except RuntimeHostSignalV1 (RuntimeCallResultV1 ⊕ RuntimeCallContextV1 × RuntimeBackendV1)}
    (hs : s.Inv) (h : perform (startCall charges dispatch context spec) s = (r, t)) :
    (Quiet s t ∧ ∃ signal, r = .error signal) ∨
      ∃ s₁, Quiet s s₁ ∧ Entry dispatch context spec s₁ r t := by
  have hcost := checkedHostCost_quiet (charges.nestedCallPreCost spec.input.length) s
  rw [startCall] at h
  cases hperform : perform (checkedHostCost (charges.nestedCallPreCost spec.input.length)) s with
  | mk cost s₁ =>
    rw [hperform] at hcost
    cases cost with
    | error signal =>
      rw [perform_bind_error hperform] at h
      grind
    | ok cost =>
      have hcharge := chargeCommonWeight_quiet cost s₁
      rw [perform_bind_ok hperform] at h
      cases hperform' : perform (chargeCommonWeight cost) s₁ with
      | mk charged s₂ =>
        rw [hperform'] at hcharge
        cases charged with
        | error signal =>
          rw [perform_bind_error hperform'] at h
          cases h
          exact Or.inl ⟨hcost.trans hcharge, signal, rfl⟩
        | ok _ =>
          rw [perform_bind_ok hperform'] at h
          have hquiet := hcost.trans hcharge
          exact Or.inr ⟨s₂, hquiet, enterCall_entry (hquiet.inv hs) h⟩

theorem op_advance {context : RuntimeCallContextV1} {op : RuntimeHostOp} {s t : HostState}
    {execute : RuntimeCallSpecV1 → Host RuntimeCallResultV1}
    {answer : Except RuntimeHostSignalV1 op.Answer} (hs : s.Inv) (hop : op.isCall = false)
    (h : perform (hostOp charges context execute op) s = (answer, t)) :
    Advance (fun domain _ => domain = .wasm ∧ context.parts.readOnly = false)
      (emitted context op answer) s t := by
  have hstep := hostOp_step context charges execute hop s hs
  rw [h] at hstep
  exact .op hstep hs

section

variable {context child : RuntimeCallContextV1} {spec : RuntimeCallSpecV1}
  {factory : RuntimeBackendV1} {s s₁ s₂ s₃ s₄ t : HostState}

theorem startCall_restored
    {r : Except RuntimeHostSignalV1 (RuntimeCallResultV1 ⊕ RuntimeCallContextV1 × RuntimeBackendV1)}
    (hs : s.Inv) (h : perform (startCall charges dispatch context spec) s = (r, t))
    (hr : ∀ entered, r ≠ .ok (.inr entered)) : Restored s t := by
  rcases startCall_cases hs h with ⟨hquiet, -⟩ | ⟨s₁, hquiet, hentry⟩
  · exact .of_quiet hquiet hs
  · cases hentry with
    | aborted hrestored _ _ => exact hrestored.after hquiet
    | trapped hrestored _ => exact hrestored.after hquiet
    | failed _ _ hrestored _ => exact hrestored.after hquiet
    | entered _ _ _ _ => exact absurd rfl (hr _)

theorem startCall_above (hs : s.Inv)
    (h : perform (startCall charges dispatch context spec) s = (.ok (.inr (child, factory)), t)) :
    Above (Transfer.touches ⟨context.parts.target, spec.target, spec.value⟩) [] s t := by
  rcases startCall_cases hs h with ⟨-, _, hsignal⟩ | ⟨s₁, hquiet, hentry⟩
  · cases hsignal
  · cases hentry with
    | entered _ _ hbegun hmoves =>
      have hs₁ := hquiet.inv hs
      exact (hbegun.above hs₁ (hmoves.grown (beginFrame_ok hs₁.journal hbegun.journal).1)).after hquiet

/-- The end of a call that got to its backend: what it did is kept, or both stacks are as they
were before it. -/
theorem call_cases {P : CommitmentDomainId → Bytes → Prop} {events : List ExecutionEventV1}
    {left answer : Except RuntimeHostSignalV1 RuntimeCallResultV1}
    {backendResult : Except RuntimeBackendFailureV1 RuntimeCallResultV1} (hs : s.Inv)
    (h : perform (startCall charges dispatch context spec) s = (.ok (.inr (child, factory)), s₁))
    (hinner : Advance P events s₁ s₂)
    (hleave : perform (leaveCall backendResult) s₂ = (left, s₃))
    (hcopy : perform (check left >>= copyResult charges) s₃ = (answer, s₄)) :
    Metered s₂ s₄ ∧
      ((isKept left = true ∧ Advance (fun domain key => P domain key ∨
        Transfer.touches ⟨context.parts.target, spec.target, spec.value⟩ domain key) events s s₄) ∨
      (isKept left = false ∧ Restored s s₄)) := by
  have hquiet : Quiet s₃ s₄ := by
    have := copyAnswer_quiet charges left s₃
    rwa [hcopy] at this
  have habove := ((startCall_above hs h).mono fun _ _ => Or.inr).advance
    (hinner.mono fun _ _ => Or.inl (b := Transfer.touches _ _ _))
  rcases leaveCall_cases habove hs hleave with
    ⟨data, rfl, -, -, hmerged⟩ | ⟨hrolled, -⟩
  · refine ⟨hmerged.metered.trans hquiet.toMetered, Or.inl ⟨rfl, ?_⟩⟩
    simpa using hmerged.advance.trans (.quiet hquiet hmerged.advance.inv)
  · refine ⟨hrolled.metered.trans hquiet.toMetered, Or.inr ⟨?_, hrolled.restored.quiet hquiet⟩⟩
    rw [Bool.eq_false_iff, ne_eq, isKept_eq_true]
    rintro ⟨data, hdata⟩
    exact hrolled.failed data hdata

end

section

variable {context : RuntimeCallContextV1} {program : RuntimeProgram} {s t : HostState} {log : Log}
  {result : Except RuntimeBackendFailureV1 RuntimeCallResultV1}

theorem Run.advance (h : Run charges dispatch context program s log result t) (hs : s.Inv) :
    Advance (touched context.parts.readOnly log.transfers) log.events s t := by
  induction h with
  | done => exact .quiet (.refl _) hs
  | op hop h rest ih =>
    have hadvance := op_advance hs hop h
    exact (hadvance.mono fun _ _ => Or.inl).trans (ih hadvance.inv)
  | stopped h rest ih =>
    have hrestored := startCall_restored hs h (by simp)
    exact hrestored.advance.trans (ih hrestored.inv)
  | @refused _ _ _ _ t u _ refusal _ _ _ h hcopy rest ih =>
    have hquiet : Quiet t u := by
      have := copyResult_quiet charges refusal t
      rwa [hcopy] at this
    have hrestored := (startCall_restored hs h (by simp)).quiet hquiet
    exact hrestored.advance.trans (ih hrestored.inv)
  | @call context child spec _ _ _ _ _ _ _ _ left _ inner log _ _ h hinner hleave hcopy rest ihinner
      ihrest =>
    rcases (call_cases hs h (ihinner (startCall_above hs h).inv) hleave hcopy).2 with
      ⟨hkept, hadvance⟩ | ⟨hkept, hrestored⟩
    · have hreadOnly : child.parts.readOnly = false → context.parts.readOnly = false := by
        rw [(deriveChildContext_ok (startCall_context h).1).2.1, Bool.or_eq_false_iff]
        exact And.left
      simp only [Log.call, hkept, if_true]
      refine (hadvance.mono fun domain key hP => ?_).trans
        ((ihrest hadvance.inv).mono (touched_mono id (List.subset_append_right _ _)))
      rcases hP with hinner | htransfer
      · exact touched_mono hreadOnly (by simp) domain key hinner
      · exact Or.inr ⟨_, by simp, htransfer⟩
    · simp only [Log.call, hkept, Bool.false_eq_true, if_false]
      exact hrestored.advance.trans (ihrest hrestored.inv)

theorem Run.transfer_point (h : Run charges dispatch context program s log result t) :
    ∀ x ∈ log.transfers, ∃ p ∈ log.points, ∃ spec, p.op = .call spec ∧
      Enters charges dispatch p.context spec p.before ∧
      x = ⟨p.context.parts.target, spec.target, spec.value⟩ := by
  have hcons : ∀ {transfers : List Transfer} {points points' : List Point}, points ⊆ points' →
      (∀ x ∈ transfers, ∃ p ∈ points, ∃ spec, p.op = .call spec ∧
        Enters charges dispatch p.context spec p.before ∧
        x = ⟨p.context.parts.target, spec.target, spec.value⟩) →
      ∀ x ∈ transfers, ∃ p ∈ points', ∃ spec, p.op = .call spec ∧
        Enters charges dispatch p.context spec p.before ∧
        x = ⟨p.context.parts.target, spec.target, spec.value⟩ := by
    intro transfers points points' hsub hall x hx
    obtain ⟨p, hp, h⟩ := hall x hx
    exact ⟨p, hsub hp, h⟩
  induction h with
  | done => simp [Log.empty]
  | op _ _ _ ih => exact hcons (List.subset_cons_self _ _) ih
  | stopped _ _ ih => exact hcons (List.subset_cons_self _ _) ih
  | refused _ _ _ ih => exact hcons (List.subset_cons_self _ _) ih
  | @call _ _ _ _ _ _ _ _ _ _ _ left _ _ _ _ _ hstart _ _ _ _ ihinner ihrest =>
    intro x hx
    rw [Log.call, List.mem_append] at hx
    rcases hx with hx | hx
    · cases hkept : isKept left with
      | false => simp [hkept] at hx
      | true =>
        rw [hkept, if_pos rfl, List.mem_cons] at hx
        rcases hx with rfl | hx
        · exact ⟨_, List.mem_cons_self .., _, rfl, ⟨_, _, _, hstart⟩, rfl⟩
        · exact hcons (by simp [Log.call]) ihinner x hx
    · exact hcons (by simp [Log.call]) ihrest x hx

end

end

end Oregon.Execution
