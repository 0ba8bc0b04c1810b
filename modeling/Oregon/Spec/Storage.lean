import Oregon.Spec.Records

/-! The database: five column families and the write batches applied to them.
A record that an encoder accepts is read back as it was written, so records are
kept decoded; a block body is not checked when it is written and goes through the
bounded decoder when it is read. -/

namespace Oregon

open Lib Std

structure OregonDb where
  blocks : ExtTreeMap Hash256 Block
  blockIndex : ExtTreeMap Hash256 BlockIndexRecord
  utxo : UtxoMap
  undo : ExtTreeMap Hash256 BlockUndo
  activeHeight : ExtTreeMap ℕ Hash256
  activeTip : Option (Hash256 × ℕ)
  preferredHeaderTip : Option (Hash256 × ℕ)
  configAnchorId : Option Hash256
  configGenesisTimestamp : Option UInt64
  health : Option NodeHealth
  pruneCursor : Option ℕ

inductive StorageOp where
  | putBlock (block : Block)
  | deleteBlock (id : Hash256)
  | putIndex (record : BlockIndexRecord)
  | putUtxo (outpoint : OutPoint) (entry : UtxoEntry)
  | deleteUtxo (outpoint : OutPoint)
  | putUndo (id : Hash256) (undo : BlockUndo)
  | deleteUndo (id : Hash256)
  | setActiveHeight (height : ℕ) (id : Hash256)
  | deleteActiveHeight (height : ℕ)
  | setTip (id : Hash256) (height : ℕ)
  | setPreferredHeaderTip (id : Hash256) (height : ℕ)
  | setConfigAnchorId (id : Hash256)
  | setConfigGenesisTimestamp (timestamp : UInt64)
  | setHealth (health : NodeHealth)
  | setPruneCursor (height : ℕ)

abbrev StorageBatch := List StorageOp

/-- The encoders run before anything is written; only these three can refuse. -/
def encodeOperation : StorageOp → Except StorageError Unit
  | .putIndex record => (encodeBlockIndex record).map fun _ => ()
  | .putUtxo _ entry => (encodeUtxoEntry entry).map fun _ => ()
  | .putUndo _ undo => (encodeBlockUndo undo).map fun _ => ()
  | _ => .ok ()

def encodeOperations (batch : StorageBatch) : Except StorageError Unit := batch.forM encodeOperation

namespace OregonDb

def empty : OregonDb := ⟨∅, ∅, ∅, ∅, ∅, none, none, none, none, none, none⟩

section

variable [Crypto]

def apply (db : OregonDb) : StorageOp → OregonDb
  | .putBlock block => { db with blocks := db.blocks.insert block.header.blockId block }
  | .deleteBlock id => { db with blocks := db.blocks.erase id }
  | .putIndex record => { db with blockIndex := db.blockIndex.insert record.header.blockId record }
  | .putUtxo outpoint entry => { db with utxo := db.utxo.insert outpoint entry }
  | .deleteUtxo outpoint => { db with utxo := db.utxo.erase outpoint }
  | .putUndo id undo => { db with undo := db.undo.insert id undo }
  | .deleteUndo id => { db with undo := db.undo.erase id }
  | .setActiveHeight height id => { db with activeHeight := db.activeHeight.insert height id }
  | .deleteActiveHeight height => { db with activeHeight := db.activeHeight.erase height }
  | .setTip id height => { db with activeTip := some (id, height) }
  | .setPreferredHeaderTip id height => { db with preferredHeaderTip := some (id, height) }
  | .setConfigAnchorId id => { db with configAnchorId := some id }
  | .setConfigGenesisTimestamp timestamp => { db with configGenesisTimestamp := some timestamp }
  | .setHealth health => { db with health := some health }
  | .setPruneCursor height => { db with pruneCursor := some height }

/-- A batch is written whole or, when an encoder refuses it or the write fails
(`fault`), not at all. -/
def commit (db : OregonDb) (fault : Option String) (batch : StorageBatch) :
    Except StorageError OregonDb := do
  encodeOperations batch
  match fault with
  | some message => throw (.durabilityFailure message)
  | none => pure (batch.foldl apply db)

def getBlock (db : OregonDb) (id : Hash256) : Except StorageError (Option Block) :=
  match db.blocks[id]? with
  | none => pure none
  | some stored => do
    let block ← (Block.decode stored.encode .default).mapError fun e =>
      .corruptData ("invalid block record: " ++ e.message)
    ensure (block.header.blockId = id)
      (.corruptData "block record key does not match decoded block id")
    pure (some block)

end

def getIndex (db : OregonDb) (id : Hash256) : Option BlockIndexRecord := db.blockIndex[id]?

def getUndo (db : OregonDb) (id : Hash256) : Option BlockUndo := db.undo[id]?

def activeIdAtHeight (db : OregonDb) (height : ℕ) : Option Hash256 := db.activeHeight[height]?

def iterUtxos (db : OregonDb) : List (OutPoint × UtxoEntry) := db.utxo.toList

def iterBodyRetainedIndices (db : OregonDb) : List (Hash256 × BlockIndexRecord) :=
  db.blockIndex.toList.filter fun (_, record) => record.bodyRetained

end OregonDb

end Oregon
