import Oregon.Spec.EffectStack

/-! The balances of the execution side, as entries of the accounting domain: one for each
address that has any, and one for the total. -/

namespace Oregon.Execution

open Lib ContractState

def BALANCE_KEY_PREFIX_V1 : Bytes := ascii "acct/v1/balance/"
def TOTAL_EXECUTION_BALANCE_KEY_V1 : Bytes := ascii "acct/v1/total_execution_balance"

def balanceKey (address : ExecutionAddress) : Bytes := BALANCE_KEY_PREFIX_V1 ++ address.toBytes

def encodeAccountingU64 (value : ℕ) : Bytes := leBytes 8 value

/-- Fails on any other length than eight; the length in the error is never looked at. -/
def decodeAccountingU64 (bytes : Bytes) : Except CoordinatorError ℕ := do
  ensure (bytes.length = 8) .accountingInvariant
  pure (readLE bytes)

def writeBalance (j : ExecutionJournalV1) (address : ExecutionAddress) (value : ℕ) :
    Except CoordinatorError ExecutionJournalV1 :=
  (if value = 0 then j.delete .executionAccounting (balanceKey address)
    else j.put .executionAccounting (balanceKey address) (encodeAccountingU64 value)).mapError
      fun _ => .accountingInvariant

section

variable [Crypto]

def readBalance (j : ExecutionJournalV1) (address : ExecutionAddress) :
    Except CoordinatorError ℕ := do
  let value ← (j.read .executionAccounting (balanceKey address)).mapError
    fun _ => .accountingInvariant
  match value with
  | some bytes => decodeAccountingU64 bytes
  | none => pure 0

end

end Oregon.Execution
