import Oregon.Proofs.Escrow
import Oregon.Proofs.NestedCalls
import Oregon.Spec.TopLevel

/-! What surrounds the backend of a transaction: the escrow that is opened before it, the
balance that funds it, and the run itself. -/

namespace Oregon.Execution

open Lib ContractState

/-- What the backend of a transaction does; a target without one is trapped. -/
def topProgram (runtime : TransactionRuntimeV1) : RuntimeProgram :=
  match runtime.dispatch.factoryFor runtime.topLevelContext.parts.target with
  | some factory => factory runtime.topLevelContext
  | none => .done (.ok (.trap .invalidCallTarget))

/-- The state that a transaction starts from, before its own frames. -/
def baseState (runtime : TransactionRuntimeV1) (journal : ExecutionJournalV1) : HostState :=
  ⟨journal, runtime.meter, .new runtime.limits, .running⟩

section

variable [Crypto]

theorem executeTopLevel_run (runtime : TransactionRuntimeV1) (s : HostState) : ∃ log r u,
    Run runtime.charges runtime.dispatch runtime.topLevelContext (topProgram runtime) s log r u ∧
    ((∃ result, r = .ok result ∧ executeTopLevel runtime s = (result, u)) ∨
      ∃ e, r = .error e ∧
        executeTopLevel runtime s = (.trap .backendDeterministic, { u with terminal := .fatal })) := by
  unfold topProgram executeTopLevel
  cases runtime.dispatch.factoryFor runtime.topLevelContext.parts.target with
  | none => exact ⟨_, _, _, .done, Or.inl ⟨_, rfl, rfl⟩⟩
  | some factory =>
    obtain ⟨log, hrun⟩ := runBackend_run runtime.charges runtime.dispatch runtime.topLevelContext
      factory s
    dsimp only
    generalize perform (runBackend runtime.charges runtime.dispatch runtime.topLevelContext factory) s =
      ended at hrun
    obtain ⟨r, u⟩ := ended
    refine ⟨log, r, u, hrun, ?_⟩
    cases r with
    | ok result => exact Or.inl ⟨result, rfl, rfl⟩
    | error e => exact Or.inr ⟨e, rfl, rfl⟩

theorem openBoundValidatedEscrow_ok {j j' : ExecutionJournalV1} {book book' : EscrowBookV1}
    {validator : FundingSourceValidatorV1} {request : FundingValidationRequestV1}
    {escrow : ValidatedEscrowV1}
    (h : openBoundValidatedEscrow j book validator request = .ok (escrow, j', book')) :
    (j.context.chainId = request.chainId ∧ j.context.height = request.height ∧
      j.context.txid = request.txid) ∧
    ∃ capability, validator request = .ok capability ∧
      capability.sourceKind = request.sourceKind ∧ capability.payer = request.payer ∧
      escrow = ⟨EscrowTicketV1.new request.txid capability request.feeTerms, request.executionDomain⟩ ∧
      Opened book request.txid capability request.feeTerms book' ∧
      (match request.sourceKind with
        | .executionBalance =>
          reserveExecutionFundedEscrow j request.payer request.feeTerms.maxEscrow = .ok j'
        | .nativeUtxo => j' = j) := by
  cases hkind : request.sourceKind <;>
    simp only [openBoundValidatedEscrow, hkind, bind_eq_ok, ensure_eq_ok, pure_eq_ok,
      mapError_eq_ok, exists_unit, not_or, not_not, Prod.exists, Prod.mk.injEq] at h
  · obtain ⟨hcontext, capability, hvalidated, hbound, -, ticket, opened, hopened, _, rfl, rfl, rfl,
      rfl⟩ := h
    obtain ⟨rfl, hescrow⟩ := open_ok (staged_eq_ok.mp hopened)
    exact ⟨hcontext, capability, hvalidated, hbound.1, hbound.2.1, rfl, hescrow, rfl⟩
  · obtain ⟨hcontext, capability, hvalidated, hbound, -, ticket, opened, hopened, _, hfunded, rfl, rfl,
      rfl⟩ := h
    obtain ⟨rfl, hescrow⟩ := open_ok (staged_eq_ok.mp hopened)
    exact ⟨hcontext, capability, hvalidated, hbound.1, hbound.2.1, rfl, hescrow, hfunded⟩

/-- The entries that paying a fee from a balance changes. -/
def feeEntries (payer : ExecutionAddress) (domain : CommitmentDomainId) (key : Bytes) : Prop :=
  domain = .executionAccounting ∧ (key = balanceKey payer ∨ key = TOTAL_EXECUTION_BALANCE_KEY_V1)

section

variable {j j' : ExecutionJournalV1} {payer : ExecutionAddress}

theorem reserve_eq_ok {maxEscrow : ℕ} : reserveExecutionFundedEscrow j payer maxEscrow = .ok j' ↔
    ∃ current, readBalance j payer = .ok current ∧ maxEscrow ≤ current ∧
      writeBalance j payer (current - maxEscrow) = .ok j' := by
  simp only [reserveExecutionFundedEscrow, bind_eq_ok, orElse_eq_ok, checkedSub_eq_some]
  simp

theorem funding_grown {request : FundingValidationRequestV1} (hj : j.Inv)
    (h : match request.sourceKind with
      | .executionBalance =>
        reserveExecutionFundedEscrow j request.payer request.feeTerms.maxEscrow = .ok j'
      | .nativeUtxo => j' = j) : Grown (feeEntries request.payer) j j' := by
  cases hkind : request.sourceKind with
  | nativeUtxo =>
    rw [hkind] at h
    exact .of_eq hj h
  | executionBalance =>
    rw [hkind] at h
    obtain ⟨current, -, -, hwrite⟩ := reserve_eq_ok.mp h
    exact (Grown.staged hj (writeBalance_eq_ok.mp hwrite)).mono fun _ _ h => ⟨h.1, Or.inl h.2⟩

end

end

end Oregon.Execution
