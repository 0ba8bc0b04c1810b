import Oregon.Spec.Utxo

/-! The records kept in the database and the encoders that may refuse them. -/

namespace Oregon

open Lib

structure SchemaVersion where
  major : UInt16
  minor : UInt16
  deriving DecidableEq, Repr

inductive StorageError where
  | corruptData (message : String)
  | unsupportedSchema (version : SchemaVersion)
  | durabilityFailure (message : String)
  deriving DecidableEq, Repr

inductive ValidationStatus where
  | headerValidated
  | fullyValidated
  | invalid
  deriving DecidableEq, Repr

structure BlockIndexRecord where
  header : BlockHeader
  parent : Hash256
  height : ℕ
  cumulativeWork : ℕ
  validation : ValidationStatus
  bodyRetained : Bool
  deriving DecidableEq, Repr

inductive NodeHealth where
  | healthy
  | reindexRequired
  deriving DecidableEq, Repr

def STORAGE_RECORD_VERSION : UInt8 := 1
def BLOCK_HEADER_BYTES : ℕ := 114
def MAX_CHAINWORK_BYTES : ℕ := 40
def MAX_LOCKING_PROGRAM_BYTES : ℕ := 65536
def MAX_UNDO_ENTRIES : ℕ := 1000000

def CONFIG_ANCHOR_ID_KEY : Bytes := ascii "config/anchor_id"
def CONFIG_GENESIS_TIMESTAMP_KEY : Bytes := ascii "config/genesis_timestamp"
def HEALTH_STATE_KEY : Bytes := ascii "health/state"
def PRUNE_CURSOR_KEY : Bytes := ascii "prune/cursor"
def ACTIVE_HEIGHT_PREFIX : Bytes := ascii "active/"

/-- The height follows the prefix in big-endian bytes. -/
def activeHeightKey (height : UInt64) : Bytes :=
  ACTIVE_HEIGHT_PREFIX ++ (leBytes 8 height.toNat).reverse

/-- The shortest big-endian bytes of a number, one zero byte for zero. -/
def canonicalBeBytes (work : ℕ) : Bytes := (leBytes (work.log2 / 8 + 1) work).reverse

def encodeFlag (b : Bool) : UInt8 := if b then 1 else 0

def encodeValidationStatus : ValidationStatus → UInt8
  | .headerValidated => 0
  | .fullyValidated => 1
  | .invalid => 2

def encodeBlockIndex (record : BlockIndexRecord) : Except StorageError Bytes := do
  ensure (record.parent = record.header.previousBlock)
    (.corruptData "block index parent does not match header previous block")
  let chainwork := canonicalBeBytes record.cumulativeWork
  ensure (chainwork.length ≤ MAX_CHAINWORK_BYTES)
    (.corruptData s!"chainwork encoding length {chainwork.length} exceeds {MAX_CHAINWORK_BYTES}")
  let header := record.header.encode
  ensure (header.length = BLOCK_HEADER_BYTES)
    (.corruptData s!"block header encoding must be {BLOCK_HEADER_BYTES} bytes")
  pure (STORAGE_RECORD_VERSION :: (header ++ Hash256.asBytes record.parent ++
    leBytes 8 record.height ++ encodeItem chainwork ++
    [encodeValidationStatus record.validation, encodeFlag record.bodyRetained]))

def encodeOutpointKey (o : OutPoint) : Bytes := Hash256.asBytes o.txid ++ leBytes 4 o.index.toNat

def encodeUtxoEntry (entry : UtxoEntry) : Except StorageError Bytes := do
  let program := entry.output.lockingProgram
  ensure (program.length ≤ MAX_LOCKING_PROGRAM_BYTES)
    (.corruptData s!"locking program length {program.length} exceeds {MAX_LOCKING_PROGRAM_BYTES}")
  pure (STORAGE_RECORD_VERSION :: (leBytes 8 entry.output.value.baseUnits ++
    leBytes 8 entry.creationHeight ++ [encodeFlag entry.isCoinbase] ++ encodeItem program))

/-- No two neighbours out of order or equal. -/
def strictlySorted : List OutPoint → Bool
  | a :: b :: rest => compare a b == .lt && strictlySorted (b :: rest)
  | _ => true

def requireStrictlySorted (outpoints : List OutPoint) (context : String) :
    Except StorageError Unit :=
  ensure (strictlySorted outpoints = true) (.corruptData (context ++ " are not strictly sorted"))

def encodeBlockUndo (undo : BlockUndo) : Except StorageError Bytes := do
  ensure (undo.spent.length ≤ MAX_UNDO_ENTRIES ∧ undo.created.length ≤ MAX_UNDO_ENTRIES)
    (.corruptData "undo entry count exceeds storage bound")
  let spentOutpoints := undo.spent.map Prod.fst
  requireStrictlySorted spentOutpoints "spent undo outpoints"
  requireStrictlySorted undo.created "created undo outpoints"
  ensure (∀ o ∈ undo.created, o ∉ spentOutpoints)
    (.corruptData "undo outpoint appears in both spent and created sets")
  let spent ← undo.spent.mapM fun (o, entry) => do
    let encoded ← encodeUtxoEntry entry
    pure (encodeOutpointKey o ++ encodeItem encoded)
  pure (STORAGE_RECORD_VERSION :: (writeVarint undo.spent.length ++ spent.flatten ++
    writeVarint undo.created.length ++ undo.created.flatMap encodeOutpointKey))

end Oregon
