import Oregon.Spec.Rules

/-! The set of unspent outputs: applying a transaction, connecting a block and
disconnecting it by its undo record. The source keeps the set in a hash map and
sorts what it reads out of it; an ordered map with the same entries is used here. -/

namespace Oregon

open Lib Std

def COINBASE_MATURITY : ℕ := 120

structure UtxoEntry where
  output : TxOutput
  creationHeight : ℕ
  isCoinbase : Bool
  deriving DecidableEq, Repr

def UtxoEntry.isSpendableAt (e : UtxoEntry) (spendHeight : ℕ) : Bool :=
  if e.isCoinbase then
    (checkedAdd e.creationHeight COINBASE_MATURITY).any fun matureHeight => matureHeight ≤ spendHeight
  else true

structure BlockUndo where
  spent : List (OutPoint × UtxoEntry)
  created : List OutPoint
  deriving DecidableEq, Repr

inductive UtxoError where
  | missingUtxo (outpoint : OutPoint)
  | duplicateInput (outpoint : OutPoint)
  | duplicateOutpoint (outpoint : OutPoint)
  | immatureCoinbase
  | outputValueExceedsInput
  | amountOverflow
  | outputIndexOverflow
  | outputCollision (outpoint : OutPoint)
  | spendAuthorizationFailed
  | invalidBlockOrder
  | undoMismatch
  | consensus (error : ConsensusError)
  deriving DecidableEq, Repr

/-- A spend verifier: any function of the transaction, the input's position and
the entry it spends. -/
abbrev SpendVerifier := Transaction → ℕ → UtxoEntry → Except UtxoError Unit

abbrev UtxoMap := ExtTreeMap OutPoint UtxoEntry

structure UtxoState where
  entries : UtxoMap
  deriving DecidableEq

namespace UtxoState

def new : UtxoState := ⟨∅⟩

def get (s : UtxoState) (o : OutPoint) : Option UtxoEntry := s.entries[o]?

def tryFromEntries (entries : List (OutPoint × UtxoEntry)) : Except UtxoError UtxoState := do
  let restored ← entries.foldlM (fun (m : UtxoMap) (e : OutPoint × UtxoEntry) => do
    ensure (e.1 ∉ m) (.duplicateOutpoint e.1)
    pure (m.insert e.1 e.2)) ∅
  pure ⟨restored⟩

/-- The inputs in order: each outpoint once, present, mature and authorized. The
outpoints met so far are `consumed`, their values sum to `sum`. -/
def scanInputs (s : UtxoState) (tx : Transaction) (spendHeight : ℕ) (verifier : SpendVerifier) :
    ℕ → List TxInput → ℕ → List OutPoint → Except UtxoError (ℕ × List OutPoint)
  | _, [], sum, consumed => pure (sum, consumed)
  | inputIndex, input :: inputs, sum, consumed => do
    let outpoint := input.outpoint
    ensure (outpoint ∉ consumed) (.duplicateInput outpoint)
    let entry ← orElse (s.get outpoint) (.missingUtxo outpoint)
    ensure (entry.isSpendableAt spendHeight = true) .immatureCoinbase
    verifier tx inputIndex entry
    let sum ← orElse (checkedAdd sum entry.output.value.baseUnits) .amountOverflow
    scanInputs s tx spendHeight verifier (inputIndex + 1) inputs sum (consumed ++ [outpoint])

section

variable [Crypto]

/-- The entries a transaction creates, none of which may exist yet. -/
def createOutputs (s : UtxoState) (tx : Transaction) (creationHeight : ℕ) (isCoinbase : Bool) :
    Except UtxoError (List (OutPoint × UtxoEntry)) :=
  tx.outputs.zipIdx.mapM fun (output, index) => do
    ensure (index < 2 ^ 32) .outputIndexOverflow
    let outpoint : OutPoint := ⟨tx.txid, UInt32.ofNat index⟩
    ensure (outpoint ∉ s.entries) (.outputCollision outpoint)
    pure (outpoint, { output, creationHeight, isCoinbase })

def insertCoinbaseOutputs (s : UtxoState) (tx : Transaction) (creationHeight : ℕ) :
    Except UtxoError UtxoState := do
  let created ← s.createOutputs tx creationHeight true
  pure ⟨s.entries.insertMany created⟩

def applyNormalTransaction (s : UtxoState) (tx : Transaction) (spendHeight : ℕ)
    (verifier : SpendVerifier) : Except UtxoError (UtxoState × ℕ) := do
  let (inputSum, consumed) ← s.scanInputs tx spendHeight verifier 0 tx.inputs 0 []
  let outputSum ← sumOutputs .amountOverflow tx.outputs
  ensure (outputSum ≤ inputSum) .outputValueExceedsInput
  let fee := inputSum - outputSum
  let created ← s.createOutputs tx spendHeight false
  pure (⟨(consumed.foldl (·.erase ·) s.entries).insertMany created⟩, fee)

/-- The position of each normal transaction in its block, by id. -/
def transactionPositions (transactions : List Transaction) :
    Except UtxoError (ExtTreeMap Hash256 ℕ) :=
  (transactions.zipIdx.drop 1).foldlM (fun positions (tx, index) => do
    ensure (tx.txid ∉ positions) .invalidBlockOrder
    pure (positions.insert tx.txid index)) ∅

/-- An input that is missing now and produced later in the block is out of order. -/
def checkOrder (s : UtxoState) (positions : ExtTreeMap Hash256 ℕ) (tx : Transaction)
    (index : ℕ) : Except UtxoError Unit :=
  tx.inputs.forM fun input =>
    ensure (¬ (s.get input.outpoint = none ∧
      (positions[input.previousTxid]?).any (fun producer => index < producer) = true))
      .invalidBlockOrder

/-- The normal transactions of a block, applied in order with their fees added up. -/
def applyTransactions (positions : ExtTreeMap Hash256 ℕ) (height : ℕ) (verifier : SpendVerifier) :
    List (Transaction × ℕ) → UtxoState → ℕ → Except UtxoError (UtxoState × ℕ)
  | [], overlay, totalFees => pure (overlay, totalFees)
  | (tx, index) :: rest, overlay, totalFees => do
    overlay.checkOrder positions tx index
    let (overlay, fee) ← overlay.applyNormalTransaction tx height verifier
    let totalFees ← orElse (checkedAdd totalFees fee) .amountOverflow
    applyTransactions positions height verifier rest overlay totalFees

/-- What one set has and the other lacks, both ways, in the order of outpoints. -/
def undoBetween (before after : UtxoState) : BlockUndo where
  spent := (before.entries.filter fun o _ => !after.entries.contains o).toList
  created := (after.entries.filter fun o _ => !before.entries.contains o).keys

def connectBlock (s : UtxoState) (block : Block) (height : ℕ) (params : ConsensusParams)
    (verifier : SpendVerifier) : Except UtxoError (UtxoState × BlockUndo) := do
  (validateNonGenesisBlockSkeleton block height).mapError UtxoError.consensus
  let positions ← transactionPositions block.transactions
  let (overlay, totalFees) ←
    applyTransactions positions height verifier (block.transactions.zipIdx.drop 1) s 0
  let feeAmount ← (Amount.fromBaseUnits totalFees).mapError fun _ => UtxoError.amountOverflow
  let coinbase ← orElse block.transactions.head? (.consensus .emptyNonGenesisBlock)
  (validateCoinbase coinbase height feeAmount params).mapError UtxoError.consensus
  let overlay ← overlay.insertCoinbaseOutputs coinbase height
  pure (overlay, undoBetween s overlay)

end

/-- First the record is checked against the set, then it is undone. -/
def disconnectBlock (s : UtxoState) (undo : BlockUndo) : Except UtxoError UtxoState := do
  ensure (undo.created.Nodup ∧ ∀ o ∈ undo.created, o ∈ s.entries) .undoMismatch
  ensure ((undo.spent.map Prod.fst).Nodup ∧
    ∀ e ∈ undo.spent, e.1 ∉ undo.created ∧ e.1 ∉ s.entries) .undoMismatch
  let overlay ← undo.created.foldlM (fun (m : UtxoMap) o => do
    ensure (o ∈ m) UtxoError.undoMismatch
    pure (m.erase o)) s.entries
  let overlay ← undo.spent.foldlM (fun (m : UtxoMap) e => do
    ensure (e.1 ∉ m) UtxoError.undoMismatch
    pure (m.insert e.1 e.2)) overlay
  pure ⟨overlay⟩

end UtxoState

end Oregon
