import Oregon.Spec.Host

/-! Nested calls. A call gets a frame of the journal and one of the effects, both begun
before the attached value moves and both ended, one way or the other, when the
backend of the target is done. -/

namespace Oregon.Execution

open Lib ContractState
open Std (ExtTreeMap)

/-- The backends that can be called, by the bytes of their addresses. -/
structure RuntimeDispatchTableV1 where
  factories : ExtTreeMap Bytes RuntimeBackendV1

def RuntimeDispatchTableV1.add (table : RuntimeDispatchTableV1)
    (entry : ExecutionAddress × RuntimeBackendV1) :
    Except CoordinatorError RuntimeDispatchTableV1 := do
  let (target, factory) := entry
  ensure (target.kind = .evm ∨ target.kind = .wasm) .invalidRuntimeTarget
  ensure (target.toBytes ∉ table.factories) .duplicateRuntimeTarget
  pure ⟨table.factories.insert target.toBytes factory⟩

def RuntimeDispatchTableV1.new (entries : List (ExecutionAddress × RuntimeBackendV1)) :
    Except CoordinatorError RuntimeDispatchTableV1 :=
  entries.foldlM RuntimeDispatchTableV1.add ⟨∅⟩

def RuntimeDispatchTableV1.factoryFor (table : RuntimeDispatchTableV1) (target : ExecutionAddress) :
    Option RuntimeBackendV1 :=
  table.factories[target.toBytes]?

def deriveChildContext (parent : RuntimeCallContextV1) (spec : RuntimeCallSpecV1) :
    Except RuntimeTrapCodeV1 RuntimeCallContextV1 := do
  let depth := parent.parts.depth + 1
  ensure (depth ≤ MAX_RUNTIME_CALL_DEPTH) .callDepthExceeded
  let executionDomain ← match spec.target.kind with
    | .evm => pure ExecutionDomain.evm
    | .wasm => pure ExecutionDomain.wasm
    | .oregon | .system => throw .invalidCallTarget
  let parts : RuntimeCallContextV1Parts :=
    { chainId := parent.parts.chainId
      height := parent.parts.height
      parentBlockHash := parent.parts.parentBlockHash
      txid := parent.parts.txid
      principal := parent.parts.principal
      caller := parent.parts.target
      target := spec.target
      executionDomain
      depth
      readOnly := parent.parts.readOnly || spec.readOnly
      transferredValue := spec.value }
  (RuntimeCallContextV1.fromTrustedParts parts).mapError fun _ => .invalidCallTarget

inductive AttachedValueTransferErrorV1 where
  | trap (code : RuntimeTrapCodeV1)
  | fatal
  deriving DecidableEq, Repr

def spendableKind (kind : ExecutionAddressKind) : Prop := kind = .evm ∨ kind = .wasm

instance (kind : ExecutionAddressKind) : Decidable (spendableKind kind) :=
  inferInstanceAs (Decidable (_ ∨ _))

/-- The journal keeps the debit when the credit fails; the caller then drops the frame. -/
def transferAttachedValue [Crypto] (caller target : ExecutionAddress) (value : ℕ) :
    Stateful ExecutionJournalV1 AttachedValueTransferErrorV1 Unit :=
  if value = 0 then pure ()
  else do
    check (ensure (spendableKind caller.kind ∧ spendableKind target.kind)
      (.trap .attachedValueTransferFailed))
    let j ← get
    let callerBalance ← check ((readBalance j caller).mapError fun _ => .fatal)
    check (ensure (value ≤ callerBalance) (.trap .attachedValueTransferFailed))
    if caller = target then pure ()
    else do
      let targetBalance ← check ((readBalance j target).mapError fun _ => .fatal)
      let nextCaller ← check (orElse (checkedSub callerBalance value) .fatal)
      let nextTarget ← check (orElse (checkedAdd targetBalance value) .fatal)
      update fun j => (writeBalance j caller nextCaller).mapError fun _ => .fatal
      update fun j => (writeBalance j target nextTarget).mapError fun _ => .fatal

/-- Both frames are dropped even when one of them cannot be. -/
def rollbackChildFrames : Host Unit := do
  let journalResult ← onJournal (update ExecutionJournalV1.revertFrame)
  let effectsResult ← onEffects (update EffectStackV1.revert)
  match journalResult, effectsResult with
  | .ok (), .ok () => pure ()
  | _, _ => latchFatal

def beginChildFrames : Host Unit := do
  let journalResult ← onJournal (update ExecutionJournalV1.beginFrame)
  match journalResult with
  | .error _ => latch .resourceExhausted
  | .ok () => do
    let effectsResult ← onEffects (update EffectStackV1.begin)
    match effectsResult with
    | .ok () => pure ()
    | .error _ => do
      let revertResult ← onJournal (update ExecutionJournalV1.revertFrame)
      match revertResult with
      | .error _ => latchFatal
      | .ok () => latch .resourceExhausted

def commitChildFrames : Host Unit := do
  let journalResult ← onJournal (update ExecutionJournalV1.commitFrame)
  match journalResult with
  | .error _ => do
    let _ ← onJournal (update ExecutionJournalV1.revertFrame)
    let _ ← onEffects (update EffectStackV1.revert)
    latchFatal
  | .ok () => do
    let effectsResult ← onEffects (update EffectStackV1.commit)
    match effectsResult with
    | .error _ => latchFatal
    | .ok () => pure ()

/-- Return data of no bytes is not retained. -/
def retainReturnData (bytes : ℕ) : Host (Except CoordinatorError Unit) :=
  if bytes = 0 then pure (.ok ())
  else onEffects (update fun effects => effects.retainReturnBytes bytes)

/-- The part of a nested call before its backend runs: a result, or a backend to be run. -/
def enterCall [Crypto] (dispatch : RuntimeDispatchTableV1) (parent : RuntimeCallContextV1)
    (spec : RuntimeCallSpecV1) :
    Host (RuntimeCallResultV1 ⊕ RuntimeCallContextV1 × RuntimeBackendV1) := do
  ensureRunning
  match deriveChildContext parent spec with
  | .error code => pure (.inl (.trap code))
  | .ok child =>
    match dispatch.factoryFor spec.target with
    | none => pure (.inl (.trap .invalidCallTarget))
    | some factory => do
      beginChildFrames
      let transfer ←
        onJournal (transferAttachedValue parent.parts.target spec.target spec.value)
      match transfer with
      | .ok () => pure (.inr (child, factory))
      | .error (.trap code) => do
        rollbackChildFrames
        pure (.inl (.trap code))
      | .error .fatal => do
        let _ ← attempt (δ := RuntimeHostSignalV1) rollbackChildFrames
        latchFatal

/-- The part of a nested call after its backend has run. -/
def leaveCall (backendResult : Except RuntimeBackendFailureV1 RuntimeCallResultV1) :
    Host RuntimeCallResultV1 :=
  match backendResult with
  | .error _ => do
    let _ ← attempt (δ := RuntimeHostSignalV1) rollbackChildFrames
    latchFatal
  | .ok result => do
    let s ← get
    if s.terminal ≠ .running then do
      rollbackChildFrames
      throw .abort
    else match result.validate with
      | .error _ => do
        rollbackChildFrames
        pure (.trap .returnDataTooLarge)
      | .ok () => do
        let returnBytes := (result.returnData.map List.length).getD 0
        let retained ← retainReturnData returnBytes
        match retained with
        | .error _ => do
          rollbackChildFrames
          pure (.trap .returnDataTooLarge)
        | .ok () =>
          match result with
          | .success _ => do
            commitChildFrames
            pure result
          | .revert _ => do
            rollbackChildFrames
            let retained ← retainReturnData returnBytes
            match retained with
            | .error _ => latchFatal
            | .ok () => pure result
          | .trap _ => do
            rollbackChildFrames
            pure result

section

variable [Crypto] (charges : HostChargeScheduleV1) (dispatch : RuntimeDispatchTableV1)

/-- A nested call, where `run` runs the backend of a context. -/
def executeNestedCall
    (run : RuntimeCallContextV1 → RuntimeBackendV1 →
      Stateful HostState RuntimeBackendFailureV1 RuntimeCallResultV1)
    (parent : RuntimeCallContextV1) (spec : RuntimeCallSpecV1) : Host RuntimeCallResultV1 := do
  let entered ← enterCall dispatch parent spec
  match entered with
  | .inl result => pure result
  | .inr (child, factory) => do
    let backendResult ← attempt (run child factory)
    leaveCall backendResult

/-- A backend with as many levels of calls below it as `levels` says. -/
def runBackendAt : ℕ → RuntimeCallContextV1 → RuntimeBackendV1 →
    Stateful HostState RuntimeBackendFailureV1 RuntimeCallResultV1
  | 0, _, _ => throw .fatal
  | levels + 1, context, factory =>
    (factory context).run (hostOp charges context
      (executeNestedCall dispatch (runBackendAt levels) context))

/-- A context of depth `d` has `MAX_RUNTIME_CALL_DEPTH - d` levels below it: the call that
would need one more is refused. -/
def runBackend (context : RuntimeCallContextV1) (factory : RuntimeBackendV1) :
    Stateful HostState RuntimeBackendFailureV1 RuntimeCallResultV1 :=
  runBackendAt charges dispatch (MAX_RUNTIME_CALL_DEPTH + 1 - context.parts.depth) context factory

end

end Oregon.Execution
