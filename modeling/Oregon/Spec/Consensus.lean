import Oregon.Spec.Block

/-! Consensus parameters and the rules about targets, work, time and issuance. -/

namespace Oregon

open Lib

inductive ConsensusError where
  | zeroTarget
  | targetExceeds256Bits
  | targetAbovePowLimit
  | initialTargetAbovePowLimit
  | arithmeticOverflow
  | invalidHeight
  | unexpectedTarget
  | invalidMtpWindow
  | timestampNotAfterMtp
  | previousBlockMismatch
  | powPrevalidationMismatch
  | powKeyBlockUnavailable
  | powEngineKeyMismatch
  | insufficientProofOfWork
  | invalidCoinbase
  | invalidFounderOutput
  | coinbaseOverClaim
  | blockTooLarge
  | transactionTooLarge (index : ℕ)
  | emptyNonGenesisBlock
  | merkleRootMismatch
  | nullOutpointInNormalTransaction
  | emptyNormalTransactionInputs (index : ℕ)
  | emptyNormalTransactionOutputs (index : ℕ)
  | multipleCoinbase
  deriving DecidableEq, Repr

def TARGET_BLOCK_SECONDS : ℤ := 300
def ASERT_HALF_LIFE_SECONDS : ℤ := 21600
def ASERT_RADIX : ℤ := 65536
def HALVING_INTERVAL : ℕ := 200000
def INITIAL_SUBSIDY_BASE_UNITS : ℕ := 237500000
def MAX_BLOCK_BYTES : ℕ := 1048576
def MAX_TRANSACTION_BYTES : ℕ := 102400
def KEY_COMMIT_V1 : UInt8 := 0x01

/-- Unsigned 64-bit addition that reports overflow. -/
def checkedAdd (a b : ℕ) : Option ℕ := if a + b < 2 ^ 64 then some (a + b) else none

/-- Unsigned subtraction that reports underflow. -/
def checkedSub (a b : ℕ) : Option ℕ := if b ≤ a then some (a - b) else none

/-- A product in `u128`. -/
def mulU128 (a b : ℕ) : ℕ := a * b % 2 ^ 128

/-- A target is a non-zero 256-bit number. -/
structure Target where
  value : BitVec 256
  ne_zero : value ≠ 0
  deriving DecidableEq, Repr

def Target.fromLeBytes (bytes : BitVec 256) : Except ConsensusError Target :=
  if h : bytes = 0 then .error .zeroTarget else .ok ⟨bytes, h⟩

def Target.toNat (t : Target) : ℕ := t.value.toNat

def Target.fromBiguint (value : ℕ) : Except ConsensusError Target :=
  if value = 0 then .error .zeroTarget
  else if 2 ^ 256 ≤ value then .error .targetExceeds256Bits
  else Target.fromLeBytes (BitVec.ofNat 256 value)

def Target.validateAgainst (t powLimit : Target) : Except ConsensusError Unit :=
  ensure (t.toNat ≤ powLimit.toNat) .targetAbovePowLimit

/-- The work of a block; cumulative work is an unbounded natural number. -/
def blockWork (t : Target) : ℕ := 2 ^ 256 / (t.toNat + 1)

structure ConsensusParams where
  powLimit : Target
  initialTarget : Target
  founderKeyCommitment : Hash256
  deriving DecidableEq, Repr

def ConsensusParams.new (powLimit initialTarget : Target) (founderKeyCommitment : Hash256) :
    Except ConsensusError ConsensusParams := do
  ensure (initialTarget.toNat ≤ powLimit.toNat) .initialTargetAbovePowLimit
  pure { powLimit, initialTarget, founderKeyCommitment }

def SCHEDULED_MINING_ISSUANCE_BASE_UNITS : ℕ := 94999997000000
def SCHEDULED_TOTAL_WITH_FOUNDER_BASE_UNITS : ℕ :=
  SCHEDULED_MINING_ISSUANCE_BASE_UNITS + FOUNDER_ALLOCATION_BASE_UNITS

/-- The subsidy of a height in base units, before it is made an `Amount`. -/
def subsidyUnits (height : ℕ) : ℕ :=
  if height = 0 then 0
  else
    let era := (height - 1) / HALVING_INTERVAL
    if 64 ≤ era then 0 else INITIAL_SUBSIDY_BASE_UNITS >>> era

def blockSubsidy (height : ℕ) : Except ConsensusError Amount :=
  (Amount.fromBaseUnits (subsidyUnits height)).mapError fun _ => .arithmeticOverflow

def medianTimePast (window : List UInt64) : Except ConsensusError UInt64 := do
  ensure (window ≠ [] ∧ window.length ≤ 11) .invalidMtpWindow
  let sorted := window.insertionSort (· ≤ ·)
  orElse sorted[sorted.length / 2]? .invalidMtpWindow

/-- Signed 128-bit arithmetic that reports overflow. -/
def checkedI128 (x : ℤ) : Except ConsensusError ℤ :=
  ensure (-2 ^ 127 ≤ x ∧ x < 2 ^ 127) .arithmeticOverflow >>= fun _ => pure x

def requiredTarget (height : ℕ) (parentTimestamp genesisTimestamp : UInt64)
    (params : ConsensusParams) : Except ConsensusError Target := do
  if height = 0 then throw .invalidHeight else
  if height = 1 then pure params.initialTarget else
  let timeDelta : ℤ := (parentTimestamp.toNat : ℤ) - genesisTimestamp.toNat
  let heightDelta : ℤ := (height - 2 : ℕ)
  let ideal ← checkedI128 (TARGET_BLOCK_SECONDS * (← checkedI128 (heightDelta + 1)))
  let drift ← checkedI128 (timeDelta - ideal)
  -- division truncates toward zero, the shift rounds down
  let exponent := (← checkedI128 (drift * ASERT_RADIX)).tdiv ASERT_HALF_LIFE_SECONDS
  let numShifts := exponent >>> (16 : ℕ)
  let frac ← checkedI128 (exponent - (← checkedI128 (numShifts * ASERT_RADIX)))
  ensure (0 ≤ frac ∧ frac < ASERT_RADIX) .arithmeticOverflow
  let term1 ← checkedI128 (195766423245049 * frac)
  let frac2 ← checkedI128 (frac * frac)
  let frac3 ← checkedI128 (frac2 * frac)
  let term2 ← checkedI128 (971821376 * frac2)
  let term3 ← checkedI128 (5127 * frac3)
  let polynomial ← checkedI128 (term1 + term2)
  let polynomial ← checkedI128 (polynomial + term3)
  let polynomial ← checkedI128 (polynomial + 2 ^ 47)
  let factor := (polynomial >>> (48 : ℕ)) + ASERT_RADIX
  ensure (0 ≤ factor ∧ factor < 2 ^ 64) .arithmeticOverflow
  if 256 ≤ numShifts then pure params.powLimit else
  if numShifts ≤ -257 then Target.fromBiguint 1 else
  let product := params.initialTarget.toNat * factor.toNat
  let shifted :=
    if numShifts < 0 then product >>> (-numShifts).toNat else product <<< numShifts.toNat
  let candidate := shifted >>> 16
  if candidate = 0 then Target.fromBiguint 1
  else if params.powLimit.toNat < candidate then pure params.powLimit
  else Target.fromBiguint candidate

end Oregon
