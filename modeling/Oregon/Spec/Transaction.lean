import Oregon.Spec.Encoding

/-! Amounts, outpoints and transactions, with their encoding. The transaction id
hashes the whole encoding, witnesses included. -/

namespace Oregon

open Lib

def BASE_UNITS_PER_OREG : ℕ := 100000000
def MAX_SUPPLY_BASE_UNITS : ℕ := 1000000 * BASE_UNITS_PER_OREG
def FOUNDER_ALLOCATION_BASE_UNITS : ℕ := 50000 * BASE_UNITS_PER_OREG

/-- An amount never exceeds the maximum supply. -/
structure Amount where
  baseUnits : ℕ
  le_max : baseUnits ≤ MAX_SUPPLY_BASE_UNITS
  deriving DecidableEq, Repr

def Amount.fromBaseUnits (value : ℕ) : Except PrimitiveError Amount :=
  if h : value ≤ MAX_SUPPLY_BASE_UNITS then .ok ⟨value, h⟩ else .error .amountAboveMaximum

structure OutPoint where
  txid : Hash256
  index : UInt32
  deriving DecidableEq, Repr

/-- Outpoints are ordered by transaction id, then by output index. -/
instance : Ord OutPoint :=
  ⟨compareLex (compareOn OutPoint.txid) (compareOn OutPoint.index)⟩

instance : Std.TransOrd OutPoint :=
  inferInstanceAs (Std.TransCmp (compareLex (compareOn OutPoint.txid) (compareOn OutPoint.index)))

instance : Std.LawfulEqOrd OutPoint where
  eq_of_compare {a b} h := by
    obtain ⟨t, i⟩ := a
    obtain ⟨t', i'⟩ := b
    change (compare t t').then (compare i i') = .eq at h
    rw [Ordering.then_eq_eq] at h
    rw [Std.LawfulEqOrd.eq_of_compare h.1, Std.LawfulEqOrd.eq_of_compare h.2]

structure TxInput where
  previousTxid : Hash256
  previousOutputIndex : UInt32
  sequence : UInt32
  witness : List Bytes
  deriving DecidableEq, Repr

def TxInput.outpoint (i : TxInput) : OutPoint := ⟨i.previousTxid, i.previousOutputIndex⟩

structure TxOutput where
  value : Amount
  lockingProgram : Bytes
  deriving DecidableEq, Repr

structure Transaction where
  version : UInt16
  inputs : List TxInput
  outputs : List TxOutput
  lockTime : UInt64
  deriving DecidableEq, Repr

/-- A byte string behind its length. -/
def encodeItem (item : Bytes) : Bytes := writeVarint item.length ++ item

def TxInput.encode (i : TxInput) : Bytes :=
  Hash256.asBytes i.previousTxid ++ leBytes 4 i.previousOutputIndex.toNat ++
    leBytes 4 i.sequence.toNat ++ writeVarint i.witness.length ++ i.witness.flatMap encodeItem

def TxOutput.encode (o : TxOutput) : Bytes :=
  leBytes 8 o.value.baseUnits ++ encodeItem o.lockingProgram

def Transaction.encode (tx : Transaction) : Bytes :=
  leBytes 2 tx.version.toNat ++
    writeVarint tx.inputs.length ++ tx.inputs.flatMap TxInput.encode ++
    writeVarint tx.outputs.length ++ tx.outputs.flatMap TxOutput.encode ++
    leBytes 8 tx.lockTime.toNat

def readItem (max : UInt64) : Decoder Bytes := do
  let len ← readLen max
  readBytes len

def TxInput.decodeFrom (limits : DecodeLimits) : Decoder TxInput := do
  let previousTxid ← readHash
  let previousOutputIndex ← readU32
  let sequence ← readU32
  let witnessCount ← readLen limits.maxWitnessItemsPerInput
  let witness ← times witnessCount (readItem limits.maxWitnessItemBytes)
  pure { previousTxid, previousOutputIndex, sequence, witness }

def readAmount : Decoder Amount := do
  let value ← readU64
  match Amount.fromBaseUnits value.toNat with
  | .ok amount => pure amount
  | .error e => throw e

def TxOutput.decodeFrom (limits : DecodeLimits) : Decoder TxOutput := do
  let value ← readAmount
  let lockingProgram ← readItem limits.maxLockingProgramBytes
  pure { value, lockingProgram }

def Transaction.decodeFrom (limits : DecodeLimits) : Decoder Transaction := do
  let version ← readU16
  if version ≠ 1 then throw (.invalidVersion version) else do
    let inputCount ← readLen limits.maxTransactionInputs
    let inputs ← times inputCount (TxInput.decodeFrom limits)
    let outputCount ← readLen limits.maxTransactionOutputs
    let outputs ← times outputCount (TxOutput.decodeFrom limits)
    let lockTime ← readU64
    pure { version, inputs, outputs, lockTime }

def Transaction.decode (bytes : Bytes) (limits : DecodeLimits) :
    Except PrimitiveError Transaction := do
  ensure (bytes.length ≤ limits.maxObjectBytes.toNat) .lengthLimitExceeded
  decodeAll (Transaction.decodeFrom limits) bytes

def TX_DOMAIN : Bytes := ascii "OREGON/TX/V0\x00"

def Transaction.txid [Crypto] (tx : Transaction) : Hash256 := domainHash TX_DOMAIN tx.encode

end Oregon
