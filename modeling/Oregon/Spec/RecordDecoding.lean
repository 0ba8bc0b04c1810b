import Oregon.Spec.Storage

/-! How the records of the database are read back from their bytes. Every decoder names
what it was reading when it gives up. -/

namespace Oregon

open Lib

def MAX_UTXO_RECORD_BYTES : ℕ := 65600

/-- How an error prints inside the message of another. -/
def PrimitiveError.debug : PrimitiveError → String
  | amountOverflow => "AmountOverflow"
  | amountUnderflow => "AmountUnderflow"
  | amountAboveMaximum => "AmountAboveMaximum"
  | unexpectedEof => "UnexpectedEof"
  | nonCanonicalVarInt => "NonCanonicalVarInt"
  | lengthLimitExceeded => "LengthLimitExceeded"
  | invalidVersion v => s!"InvalidVersion({v})"
  | trailingBytes => "TrailingBytes"
  | invalidHashLength n => s!"InvalidHashLength({n})"
  | emptyBlockTransactions => "EmptyBlockTransactions"

def primitiveError (context : String) (error : PrimitiveError) : StorageError :=
  .corruptData (context ++ ": " ++ error.debug)

abbrev StorageCursor := Reader StorageError

/-- A reader of primitives whose errors name the field. -/
def field {α : Type} (context : String) (p : Decoder α) : StorageCursor α :=
  p.mapError (primitiveError context)

/-- A record is read to its end. -/
def decodeRecord {α : Type} (context : String) (p : StorageCursor α) (bytes : Bytes) :
    Except StorageError α := do
  let r ← p ⟨bytes, 0⟩
  ensure (r.2.rest = []) (primitiveError context .trailingBytes)
  pure r.1

def decodeFlag (invalid : String) (value : UInt8) : Except StorageError Bool :=
  if value = 0 then .ok false
  else if value = 1 then .ok true
  else .error (.corruptData s!"{invalid} {value}")

def decodeValidationStatus (value : UInt8) : Except StorageError ValidationStatus :=
  if value = 0 then .ok .headerValidated
  else if value = 1 then .ok .fullyValidated
  else if value = 2 then .ok .invalid
  else .error (.corruptData s!"invalid block validation status {value}")

/-- The number whose shortest big-endian bytes are given. -/
def fromCanonicalBeBytes (bytes : Bytes) : Option ℕ :=
  if bytes = [] ∨ (1 < bytes.length ∧ bytes.head? = some 0) then none
  else some (readLE bytes.reverse)

def readBlockIndex : StorageCursor BlockIndexRecord := do
  let version ← field "block index record version" readByte
  checked (ensure (version = STORAGE_RECORD_VERSION)
    (.corruptData s!"unsupported block index record version {version}"))
  let headerBytes ← field "block index header" (readBytes BLOCK_HEADER_BYTES)
  let header ← checked ((BlockHeader.decode headerBytes).mapError
    (primitiveError "invalid block index header"))
  let parentBytes ← field "block index parent" (readBytes 32)
  let parent ← checked ((Hash256.fromSlice parentBytes).mapError
    (primitiveError "invalid block index parent"))
  let height ← field "block index height" readU64
  let chainworkLen ← field "block index chainwork length"
    (readLen (UInt64.ofNat MAX_CHAINWORK_BYTES))
  let chainworkBytes ← field "block index chainwork" (readBytes chainworkLen)
  let cumulativeWork ← checked (orElse (fromCanonicalBeBytes chainworkBytes)
    (.corruptData "non-canonical block index chainwork"))
  let status ← field "block index validation status" readByte
  let validation ← checked (decodeValidationStatus status)
  let flag ← field "block index body-retained flag" readByte
  let bodyRetained ← checked (decodeFlag "invalid body-retained flag" flag)
  pure { header, parent, height := height.toNat, cumulativeWork, validation, bodyRetained }

def decodeBlockIndex (bytes : Bytes) : Except StorageError BlockIndexRecord := do
  let record ← decodeRecord "block index trailing bytes" readBlockIndex bytes
  ensure (record.parent = record.header.previousBlock)
    (.corruptData "block index parent does not match header previous block")
  pure record

def decodeOutpointKey (bytes : Bytes) : Except StorageError OutPoint := do
  ensure (bytes.length = 36)
    (.corruptData s!"outpoint key must be exactly 36 bytes, got {bytes.length}")
  let txid ← (Hash256.fromSlice (bytes.take 32)).mapError (primitiveError "invalid outpoint txid")
  pure ⟨txid, UInt32.ofNat (readLE (bytes.drop 32))⟩

def readUtxoEntry : StorageCursor UtxoEntry := do
  let version ← field "utxo record version" readByte
  checked (ensure (version = STORAGE_RECORD_VERSION)
    (.corruptData s!"unsupported utxo record version {version}"))
  let units ← field "utxo value" readU64
  let value ← checked ((Amount.fromBaseUnits units.toNat).mapError
    (primitiveError "invalid utxo value"))
  let creationHeight ← field "utxo creation height" readU64
  let flag ← field "utxo coinbase flag" readByte
  let isCoinbase ← checked (decodeFlag "invalid utxo coinbase flag" flag)
  let programLen ← field "utxo locking program length"
    (readLen (UInt64.ofNat MAX_LOCKING_PROGRAM_BYTES))
  let lockingProgram ← field "utxo locking program" (readBytes programLen)
  pure { output := { value, lockingProgram }, creationHeight := creationHeight.toNat, isCoinbase }

def decodeUtxoEntry (bytes : Bytes) : Except StorageError UtxoEntry := do
  ensure (bytes.length ≤ MAX_UTXO_RECORD_BYTES)
    (.corruptData s!"utxo record length {bytes.length} exceeds {MAX_UTXO_RECORD_BYTES}")
  decodeRecord "utxo trailing bytes" readUtxoEntry bytes

def requireNextOutpoint (previous : Option OutPoint) (current : OutPoint) (context : String) :
    Except StorageError Unit :=
  ensure (previous.all fun value => compare value current == .lt)
    (.corruptData (context ++ " are not strictly sorted"))

/-- The spent outpoints of an undo record with their entries, each above the one before. -/
def readSpent : ℕ → Option OutPoint → StorageCursor (List (OutPoint × UtxoEntry))
  | 0, _ => pure []
  | n + 1, previous => do
    let key ← field "undo spent outpoint" (readBytes 36)
    let outpoint ← checked (decodeOutpointKey key)
    checked (requireNextOutpoint previous outpoint "spent undo outpoints")
    let entryLen ← field "undo utxo record length" (readLen (UInt64.ofNat MAX_UTXO_RECORD_BYTES))
    let entryBytes ← field "undo utxo record" (readBytes entryLen)
    let entry ← checked (decodeUtxoEntry entryBytes)
    let rest ← readSpent n (some outpoint)
    pure ((outpoint, entry) :: rest)

/-- The created outpoints, each above the one before and none of them spent. -/
def readCreated (spentOutpoints : List OutPoint) :
    ℕ → Option OutPoint → StorageCursor (List OutPoint)
  | 0, _ => pure []
  | n + 1, previous => do
    let key ← field "undo created outpoint" (readBytes 36)
    let outpoint ← checked (decodeOutpointKey key)
    checked (requireNextOutpoint previous outpoint "created undo outpoints")
    checked (ensure (outpoint ∉ spentOutpoints)
      (.corruptData "undo outpoint appears in both spent and created sets"))
    let rest ← readCreated spentOutpoints n (some outpoint)
    pure (outpoint :: rest)

def readBlockUndo : StorageCursor BlockUndo := do
  let version ← field "undo record version" readByte
  checked (ensure (version = STORAGE_RECORD_VERSION)
    (.corruptData s!"unsupported undo record version {version}"))
  let spentCount ← field "undo spent count" (readLen (UInt64.ofNat MAX_UNDO_ENTRIES))
  let spent ← readSpent spentCount none
  let createdCount ← field "undo created count" (readLen (UInt64.ofNat MAX_UNDO_ENTRIES))
  let created ← readCreated (spent.map Prod.fst) createdCount none
  pure { spent, created }

def decodeBlockUndo (bytes : Bytes) : Except StorageError BlockUndo :=
  decodeRecord "undo trailing bytes" readBlockUndo bytes

end Oregon
