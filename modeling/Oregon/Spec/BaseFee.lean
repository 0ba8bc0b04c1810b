import Oregon.Spec.Consensus
import Oregon.Spec.Transaction

/-! The base fee per weight from block to block, and the weight budget of a block. Products of
two `u64` are taken in `u128`. -/

namespace Oregon.Resources

open Lib

inductive ResourceFeeError where
  | unsupportedVersion (version : UInt16)
  | invalidParameters
  | parentFeeOutOfRange
  | parentWeightExceeded
  | invalidTransactionWeight
  | blockWeightExceeded
  deriving DecidableEq, Repr

structure FeeParametersV1 where
  targetWeight : ℕ
  maxTransactionWeight : ℕ
  adjustmentDenominator : ℕ
  minBaseFee : ℕ
  maxBaseFee : ℕ
  target_pos : targetWeight ≠ 0
  limit_lt : targetWeight * 2 < 2 ^ 64
  transaction_pos : maxTransactionWeight ≠ 0
  transaction_le : maxTransactionWeight ≤ targetWeight * 2
  denominator_le : 2 ≤ adjustmentDenominator
  denominator_lt : adjustmentDenominator < 2 ^ 64
  min_pos : minBaseFee ≠ 0
  min_le : minBaseFee ≤ maxBaseFee
  max_le : maxBaseFee ≤ MAX_SUPPLY_BASE_UNITS
  deriving Repr

namespace FeeParametersV1

def blockWeightLimit (p : FeeParametersV1) : ℕ := p.targetWeight * 2

def new (version : UInt16) (targetWeight maxTransactionWeight adjustmentDenominator minBaseFee
    maxBaseFee : UInt64) : Except ResourceFeeError FeeParametersV1 :=
  if version ≠ 1 then .error (.unsupportedVersion version)
  else if hlimit : targetWeight.toNat * 2 < 2 ^ 64 then
    if h : targetWeight.toNat = 0 ∨ maxTransactionWeight.toNat = 0 ∨
        targetWeight.toNat * 2 < maxTransactionWeight.toNat ∨ adjustmentDenominator.toNat < 2 ∨
        minBaseFee.toNat = 0 ∨ maxBaseFee.toNat < minBaseFee.toNat ∨
        MAX_SUPPLY_BASE_UNITS < maxBaseFee.toNat then
      .error .invalidParameters
    else
      .ok {
        targetWeight := targetWeight.toNat
        maxTransactionWeight := maxTransactionWeight.toNat
        adjustmentDenominator := adjustmentDenominator.toNat
        minBaseFee := minBaseFee.toNat
        maxBaseFee := maxBaseFee.toNat
        target_pos := by omega
        limit_lt := hlimit
        transaction_pos := by omega
        transaction_le := by omega
        denominator_le := by omega
        denominator_lt := adjustmentDenominator.toNat_lt
        min_pos := by omega
        min_le := by omega
        max_le := by omega }
  else .error .invalidParameters

end FeeParametersV1

/-- A `u128` as a `u64`. -/
def narrowU64 (value : ℕ) : Except ResourceFeeError ℕ :=
  if value < 2 ^ 64 then .ok value else .error .invalidParameters

def nextBaseFee (p : FeeParametersV1) (parentBaseFee parentWeight : ℕ) :
    Except ResourceFeeError ℕ :=
  if ¬ (p.minBaseFee ≤ parentBaseFee ∧ parentBaseFee ≤ p.maxBaseFee) then
    .error .parentFeeOutOfRange
  else if p.blockWeightLimit < parentWeight then .error .parentWeightExceeded
  else if parentWeight = p.targetWeight then .ok parentBaseFee
  else do
    let distance := max parentWeight p.targetWeight - min parentWeight p.targetWeight
    let denominator := mulU128 p.targetWeight p.adjustmentDenominator
    let change ← narrowU64 (mulU128 parentBaseFee distance / denominator)
    if p.targetWeight < parentWeight then do
      let increased ← narrowU64 ((parentBaseFee + max change 1) % 2 ^ 128)
      pure (min increased p.maxBaseFee)
    else pure (max (parentBaseFee - change) p.minBaseFee)

structure BlockWeightBudget where
  limit : ℕ
  transactionLimit : ℕ
  consumed : ℕ
  deriving DecidableEq, Repr

namespace BlockWeightBudget

def new (p : FeeParametersV1) : BlockWeightBudget := ⟨p.blockWeightLimit, p.maxTransactionWeight, 0⟩

/-- The budget with a transaction in it; a refused transaction leaves the budget as it is. -/
def includeWeight (budget : BlockWeightBudget) (actualWeight : ℕ) :
    Except ResourceFeeError BlockWeightBudget :=
  if actualWeight = 0 ∨ budget.transactionLimit < actualWeight then .error .invalidTransactionWeight
  else if 2 ^ 64 ≤ budget.consumed + actualWeight then .error .blockWeightExceeded
  else if budget.limit < budget.consumed + actualWeight then .error .blockWeightExceeded
  else .ok { budget with consumed := budget.consumed + actualWeight }

end BlockWeightBudget

end Oregon.Resources
