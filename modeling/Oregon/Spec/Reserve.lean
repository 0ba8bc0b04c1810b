import Oregon.Spec.Utxo

/-! The execution reserve: one unspent output, under a locking program of its own, that
holds what the execution side owes. A transition replaces it by one of the new amount,
or removes it when nothing is left. -/

namespace Oregon

open Lib

def EXECUTION_RESERVE_LOCKING_PROGRAM_V1 : Bytes := ascii "OREGON/EXEC/RESERVE/V1\x00"
def RESERVE_TRANSITION_DOMAIN : Bytes := ascii "OREGON/RESERVE/TRANSITION/V1\x00"
def RESERVE_OUTPOINT_DOMAIN : Bytes := ascii "OREGON/RESERVE/OUTPOINT/V1\x00"
def RESERVE_TRANSITION_VERSION_V1 : ℕ := 1

inductive ReserveTransitionError where
  | arithmeticOverflow
  | arithmeticUnderflow
  | executionBalanceMismatch (reserveAmount executionBalance : ℕ)
  | invalidPreviousSnapshot
  | amountOutOfRange
  | previousReserveMismatch
  | multipleLiveReserves
  | outputCollision (outpoint : OutPoint)
  | undoMismatch
  deriving DecidableEq, Repr

structure ReservePoolSnapshotV1 where
  outpoint : OutPoint
  amount : ℕ
  deriving DecidableEq, Repr

structure ReserveTransitionV1Parts where
  chainId : ℕ
  height : ℕ
  parentBlockHash : Hash256
  previous : Option ReservePoolSnapshotV1
  nativeDepositTotal : ℕ
  executionWithdrawalTotal : ℕ
  executionFeeTotal : ℕ
  newExecutionBalanceTotal : ℕ
  producerCoinbaseTxid : Hash256
  deriving DecidableEq, Repr

structure ReserveTransitionV1 where
  parts : ReserveTransitionV1Parts
  canonicalTransitionBytes : Bytes
  transitionId : Hash256
  newReserveAmount : ℕ
  newReserveOutpoint : Option OutPoint
  deriving DecidableEq, Repr

structure ReserveUndoV1 where
  previous : Option (OutPoint × UtxoEntry)
  created : Option (OutPoint × UtxoEntry)
  deriving DecidableEq, Repr

/-- What the transition starts from. -/
def ReserveTransitionV1Parts.previousAmount (parts : ReserveTransitionV1Parts) : ℕ :=
  match parts.previous with
  | none => 0
  | some previous => previous.amount

def encodePrevious : Option ReservePoolSnapshotV1 → Bytes
  | none => [0x00]
  | some previous =>
    0x01 :: (Hash256.asBytes previous.outpoint.txid ++ leBytes 4 previous.outpoint.index.toNat)

def encodeTransitionParts (parts : ReserveTransitionV1Parts) : Bytes :=
  leBytes 2 RESERVE_TRANSITION_VERSION_V1 ++ leBytes 8 parts.chainId ++ leBytes 8 parts.height ++
    Hash256.asBytes parts.parentBlockHash ++ encodePrevious parts.previous ++
    leBytes 8 parts.previousAmount ++ leBytes 8 parts.nativeDepositTotal ++
    leBytes 8 parts.executionWithdrawalTotal ++ leBytes 8 parts.executionFeeTotal ++
    leBytes 8 parts.newExecutionBalanceTotal ++ Hash256.asBytes parts.producerCoinbaseTxid

def UtxoEntry.isReserve (entry : UtxoEntry) : Bool :=
  entry.output.lockingProgram = EXECUTION_RESERVE_LOCKING_PROGRAM_V1

def liveReserves (state : UtxoState) : List (OutPoint × UtxoEntry) :=
  state.entries.toList.filter fun e => e.2.isReserve

/-- An amount in the range of amounts, with the error of the reserve. -/
def reserveAmount (value : ℕ) : Except ReserveTransitionError Amount :=
  (Amount.fromBaseUnits value).mapError fun _ => .amountOutOfRange

section

variable [Crypto]

def reserveTransitionId (canonicalTransitionBytes : Bytes) : Hash256 :=
  domainHash RESERVE_TRANSITION_DOMAIN canonicalTransitionBytes

def reserveOutpointTxid (transitionId : Hash256) : Hash256 :=
  domainHash RESERVE_OUTPOINT_DOMAIN (Hash256.asBytes transitionId)

def ReserveTransitionV1.new (parts : ReserveTransitionV1Parts) :
    Except ReserveTransitionError ReserveTransitionV1 := do
  ensure (¬ parts.previous.any fun previous => previous.amount = 0) .invalidPreviousSnapshot
  let afterDeposit ←
    orElse (checkedAdd parts.previousAmount parts.nativeDepositTotal) .arithmeticOverflow
  let afterWithdrawal ←
    orElse (checkedSub afterDeposit parts.executionWithdrawalTotal) .arithmeticUnderflow
  let newReserveAmount ←
    orElse (checkedSub afterWithdrawal parts.executionFeeTotal) .arithmeticUnderflow
  ensure (newReserveAmount = parts.newExecutionBalanceTotal)
    (.executionBalanceMismatch newReserveAmount parts.newExecutionBalanceTotal)
  parts.previous.toList.forM fun previous => do
    let _ ← reserveAmount previous.amount
  let _ ← reserveAmount newReserveAmount
  let canonicalTransitionBytes := encodeTransitionParts parts
  let transitionId := reserveTransitionId canonicalTransitionBytes
  let newReserveOutpoint :=
    if newReserveAmount ≠ 0 then some ⟨reserveOutpointTxid transitionId, 0⟩ else none
  pure { parts, canonicalTransitionBytes, transitionId, newReserveAmount, newReserveOutpoint }

end

/-- The live reserve that the transition says it replaces. -/
def previousReserve (live : List (OutPoint × UtxoEntry)) (transition : ReserveTransitionV1) :
    Except ReserveTransitionError (Option (OutPoint × UtxoEntry)) :=
  match transition.parts.previous with
  | none => do
    ensure (live = []) .previousReserveMismatch
    pure none
  | some expected => do
    let (outpoint, entry) ← orElse live.head? .previousReserveMismatch
    ensure (¬ (outpoint ≠ expected.outpoint ∨ entry.output.value.baseUnits ≠ expected.amount ∨
      entry.output.lockingProgram ≠ EXECUTION_RESERVE_LOCKING_PROGRAM_V1)) .previousReserveMismatch
    pure (some (outpoint, entry))

/-- The reserve that the transition creates. -/
def createdReserve (state : UtxoState) (transition : ReserveTransitionV1) :
    Except ReserveTransitionError (Option (OutPoint × UtxoEntry)) :=
  match transition.newReserveOutpoint with
  | none => pure none
  | some outpoint => do
    ensure (state.get outpoint = none) (.outputCollision outpoint)
    let value ← reserveAmount transition.newReserveAmount
    pure (some (outpoint,
      { output := { value, lockingProgram := EXECUTION_RESERVE_LOCKING_PROGRAM_V1 }
        creationHeight := transition.parts.height
        isCoinbase := false }))

/-- Removes an entry, which has to be there as given. -/
def removeExact (overlay : UtxoState) (e : Option (OutPoint × UtxoEntry))
    (mismatch : OutPoint → ReserveTransitionError) : Except ReserveTransitionError UtxoState :=
  match e with
  | none => pure overlay
  | some (outpoint, entry) => do
    ensure (overlay.get outpoint = some entry) (mismatch outpoint)
    pure ⟨overlay.entries.erase outpoint⟩

/-- Inserts an entry, which may not replace another. -/
def insertFresh (overlay : UtxoState) (e : Option (OutPoint × UtxoEntry))
    (collision : OutPoint → ReserveTransitionError) : Except ReserveTransitionError UtxoState :=
  match e with
  | none => pure overlay
  | some (outpoint, entry) => do
    ensure (overlay.get outpoint = none) (collision outpoint)
    pure ⟨overlay.entries.insert outpoint entry⟩

/-- The overlay that a transition is prepared in, and its undo record. -/
def reserveOverlay (state : UtxoState) (transition : ReserveTransitionV1) :
    Except ReserveTransitionError (ReserveUndoV1 × UtxoState) := do
  let live := liveReserves state
  ensure (live.length ≤ 1) .multipleLiveReserves
  let previous ← previousReserve live transition
  let created ← createdReserve state transition
  let overlay ← removeExact state previous fun _ => .previousReserveMismatch
  let overlay ← insertFresh overlay created .outputCollision
  pure ({ previous, created }, overlay)

/-- The reserve that an undo record takes back has to be the only live one. -/
def checkCreated (state : UtxoState) (created : Option (OutPoint × UtxoEntry)) :
    Except ReserveTransitionError Unit :=
  match created with
  | some (expectedOutpoint, expectedEntry) =>
    ensure (liveReserves state = [(expectedOutpoint, expectedEntry)] ∧
      state.get expectedOutpoint = some expectedEntry) .undoMismatch
  | none => ensure (liveReserves state = []) .undoMismatch

def undoOverlay (state : UtxoState) (undo : ReserveUndoV1) :
    Except ReserveTransitionError UtxoState := do
  checkCreated state undo.created
  undo.previous.toList.forM fun (previousOutpoint, _) =>
    ensure (state.get previousOutpoint = none) .undoMismatch
  let overlay ← removeExact state undo.created fun _ => .undoMismatch
  insertFresh overlay undo.previous fun _ => .undoMismatch

/-- What a call returns, with the state it leaves: the overlay replaces the state at the
very end, so a call that fails leaves the state as it was. -/
def applyReserveTransitionV1 (state : UtxoState) (transition : ReserveTransitionV1) :
    Except ReserveTransitionError ReserveUndoV1 × UtxoState :=
  match reserveOverlay state transition with
  | .error e => (.error e, state)
  | .ok (undo, overlay) => (.ok undo, overlay)

def undoReserveTransitionV1 (state : UtxoState) (undo : ReserveUndoV1) :
    Except ReserveTransitionError Unit × UtxoState :=
  match undoOverlay state undo with
  | .error e => (.error e, state)
  | .ok overlay => (.ok (), overlay)

/-- Applied to a copy, taken back, and compared. -/
def ReserveTransitionV1.validateAgainst (transition : ReserveTransitionV1) (state : UtxoState) :
    Except ReserveTransitionError Unit := do
  let (result, preview) := applyReserveTransitionV1 state transition
  let undo ← result
  let (result, preview) := undoReserveTransitionV1 preview undo
  result
  ensure (preview = state) .undoMismatch

end Oregon
