import Oregon.Spec.NestedCalls

/-! How the execution of a transaction begins. The most that it can cost is put into escrow;
when it is funded from an execution balance, that balance is debited. Then the backend of
its target runs in a frame of the journal and one of the effects. -/

namespace Oregon.Execution

open Lib

structure FundingValidationRequestV1 where
  chainId : ℕ
  height : ℕ
  txid : Hash256
  executionDomain : ExecutionDomain
  principal : ExecutionAddress
  payer : ExecutionAddress
  authorizationCommitment : Hash256
  sourceKind : FeeSourceKind
  sourceCommitment : Hash256
  sourceSequence : ℕ
  feeTerms : FeeTermsV1
  deriving DecidableEq, Repr

structure ValidatedEscrowV1 where
  ticket : EscrowTicketV1
  executionDomain : ExecutionDomain
  deriving DecidableEq, Repr

/-- The validator of funding sources is not part of the coordinator; it is asked once. -/
abbrev FundingSourceValidatorV1 :=
  FundingValidationRequestV1 → Except CoordinatorError FundingCapabilityV1

structure TransactionRuntimeV1 where
  topLevelContext : RuntimeCallContextV1
  meter : WeightMeter
  limits : CoordinatorLimitsV1
  charges : HostChargeScheduleV1
  dispatch : RuntimeDispatchTableV1

def validateTopLevelContext (j : ExecutionJournalV1) (request : FundingValidationRequestV1)
    (context : RuntimeCallContextV1) : Except CoordinatorError Unit :=
  ensure (¬ (context.parts.chainId ≠ request.chainId ∨ context.parts.height ≠ request.height ∨
    context.parts.txid ≠ request.txid ∨
    context.parts.parentBlockHash ≠ j.context.parentBlockHash ∨
    context.parts.principal ≠ request.principal ∨ context.parts.caller ≠ request.principal ∨
    context.parts.executionDomain ≠ request.executionDomain ∨ context.parts.depth ≠ 1))
    .runtimeContextMismatch

section

variable [Crypto]

def reserveExecutionFundedEscrow (j : ExecutionJournalV1) (payer : ExecutionAddress)
    (maxEscrow : ℕ) : Except CoordinatorError ExecutionJournalV1 := do
  let current ← readBalance j payer
  let available ← orElse (checkedSub current maxEscrow) .insufficientExecutionFunding
  writeBalance j payer available

def openBoundValidatedEscrow (j : ExecutionJournalV1) (book : EscrowBookV1)
    (validator : FundingSourceValidatorV1) (request : FundingValidationRequestV1) :
    Except CoordinatorError (ValidatedEscrowV1 × ExecutionJournalV1 × EscrowBookV1) := do
  ensure (¬ (j.context.chainId ≠ request.chainId ∨ j.context.height ≠ request.height ∨
    j.context.txid ≠ request.txid)) .fundingContextMismatch
  let capability ← validator request
  ensure (¬ (capability.sourceKind ≠ request.sourceKind ∨ capability.payer ≠ request.payer ∨
    capability.sourceCommitment ≠ request.sourceCommitment ∨
    capability.sourceSequence ≠ request.sourceSequence ∨
    capability.authorizationCommitment ≠ request.authorizationCommitment))
    .fundingCapabilityMismatch
  ensure (request.feeTerms.maxEscrow ≤ capability.availableAmount) .fundingCapabilityAmountTooSmall
  let (ticket, stagedBook) ←
    (staged (EscrowBookV1.open request.txid capability request.feeTerms) book).mapError
      fun _ => .escrowOpenFailed
  let j ← match request.sourceKind with
    | .executionBalance => reserveExecutionFundedEscrow j request.payer request.feeTerms.maxEscrow
    | .nativeUtxo => pure j
  pure (⟨ticket, request.executionDomain⟩, j, stagedBook)

/-- The escrow of a transaction, the book with it, and the state that its backend starts in. -/
def beginTransaction (journal : ExecutionJournalV1) (book : EscrowBookV1)
    (validator : FundingSourceValidatorV1) (request : FundingValidationRequestV1)
    (runtime : TransactionRuntimeV1) :
    Except CoordinatorError (ValidatedEscrowV1 × EscrowBookV1 × HostState) := do
  validateTopLevelContext journal request runtime.topLevelContext
  let (escrow, journal, book) ← openBoundValidatedEscrow journal book validator request
  let journal ← journal.beginFrame.mapError fun _ => .fatalExecution
  let effects ← (EffectStackV1.new runtime.limits).begin
  pure (escrow, book, { journal, meter := runtime.meter, effects, terminal := .running })

/-- The backend of the top-level target; a backend that fails is fatal. -/
def executeTopLevel (runtime : TransactionRuntimeV1) (s : HostState) :
    RuntimeCallResultV1 × HostState :=
  match runtime.dispatch.factoryFor runtime.topLevelContext.parts.target with
  | none => (.trap .invalidCallTarget, s)
  | some factory =>
    match perform (runBackend runtime.charges runtime.dispatch runtime.topLevelContext factory) s with
    | (.ok result, s) => (result, s)
    | (.error _, s) => (.trap .backendDeterministic, { s with terminal := .fatal })

end

end Oregon.Execution
