import Oregon.Lib.Maps
import Oregon.Lib.Stateful
import Oregon.Spec.Records

/-! Opening the database: the check of the schema version and the migration of a
database of version 1.0. The column families are kept as the bytes on disk, and every
batch that is written durably is recorded, so that a crash can be placed between any two. -/

namespace Oregon

open Lib Std

def SCHEMA_KEY : Bytes := ascii "schema/version"
def SCHEMA_MIGRATION_KEY : Bytes := ascii "schema/migration"
def ACTIVE_TIP_ID_KEY : Bytes := ascii "active/tip_id"
def ACTIVE_TIP_HEIGHT_KEY : Bytes := ascii "active/tip_height"
def PREFERRED_HEADER_TIP_ID_KEY : Bytes := ascii "headers/tip_id"
def PREFERRED_HEADER_TIP_HEIGHT_KEY : Bytes := ascii "headers/tip_height"
def MIGRATION_MARKER_VERSION : UInt8 := 1
def MIGRATION_MARKER_BYTES : ℕ := 9
def LEGACY_SCHEMA_VERSION_1_0 : SchemaVersion := ⟨1, 0⟩
def SCHEMA_VERSION : SchemaVersion := ⟨1, 1⟩

def encodeU16Be (n : UInt16) : Bytes := (leBytes 2 n.toNat).reverse

def decodeU16Be (bytes : Bytes) : UInt16 := UInt16.ofNat (readLE bytes.reverse)

def encodeSchemaVersion (version : SchemaVersion) : Bytes :=
  encodeU16Be version.major ++ encodeU16Be version.minor

def decodeSchemaVersion (bytes : Bytes) : Except StorageError SchemaVersion := do
  ensure (bytes.length = 4) (.corruptData "schema version must be exactly 4 bytes")
  pure ⟨decodeU16Be (bytes.take 2), decodeU16Be (bytes.drop 2)⟩

def encodeMigrationMarker (source target : SchemaVersion) : Bytes :=
  MIGRATION_MARKER_VERSION :: (encodeSchemaVersion source ++ encodeSchemaVersion target)

def decodeMigrationMarker (bytes : Bytes) : Except StorageError (SchemaVersion × SchemaVersion) := do
  ensure (bytes.length = MIGRATION_MARKER_BYTES)
    (.corruptData "migration marker must be exactly 9 bytes")
  let version := bytes.headD 0
  ensure (version = MIGRATION_MARKER_VERSION)
    (.corruptData s!"unsupported migration marker version {version}")
  let source ← decodeSchemaVersion ((bytes.drop 1).take 4)
  let target ← decodeSchemaVersion (bytes.drop 5)
  pure (source, target)

def decodeHash (bytes : Bytes) (context : String) : Except StorageError Hash256 :=
  (Hash256.fromSlice bytes).mapError fun e => .corruptData s!"{context}: {e.message}"

def decodeU64Le (bytes : Bytes) (context : String) : Except StorageError UInt64 := do
  ensure (bytes.length = 8) (.corruptData s!"{context} must be exactly 8 bytes")
  pure (UInt64.ofNat (readLE bytes))

/-- The column families on disk, with the one RocksDB always has. -/
structure RawDb where
  blocks : ExtTreeMap Bytes Bytes
  blockIndex : ExtTreeMap Bytes Bytes
  utxo : ExtTreeMap Bytes Bytes
  undo : ExtTreeMap Bytes Bytes
  chainMeta : ExtTreeMap Bytes Bytes
  default : ExtTreeMap Bytes Bytes

/-- Puts and deletes in the metadata, written together or not at all. -/
abbrev WriteBatch := List (Bytes × Option Bytes)

namespace RawDb

def write (db : RawDb) (batch : WriteBatch) : RawDb :=
  { db with chainMeta := applyChanges batch db.chainMeta }

def hasNoUserRecords (db : RawDb) : Bool :=
  db.blocks.isEmpty && db.blockIndex.isEmpty && db.utxo.isEmpty && db.undo.isEmpty &&
    db.chainMeta.isEmpty && db.default.isEmpty

def readTipPair (db : RawDb) (idKey heightKey : Bytes) (context : String) :
    Except StorageError (Option (Hash256 × UInt64)) :=
  match db.chainMeta[idKey]?, db.chainMeta[heightKey]? with
  | none, none => pure none
  | some id, some height => do
    let id ← decodeHash id s!"{context} block id"
    let height ← decodeU64Le height s!"{context} height"
    pure (some (id, height))
  | _, _ => throw (.corruptData s!"{context} metadata is partially present")

def activeTip (db : RawDb) : Except StorageError (Option (Hash256 × UInt64)) :=
  db.readTipPair ACTIVE_TIP_ID_KEY ACTIVE_TIP_HEIGHT_KEY "active tip"

def preferredHeaderTip (db : RawDb) : Except StorageError (Option (Hash256 × UInt64)) :=
  db.readTipPair PREFERRED_HEADER_TIP_ID_KEY PREFERRED_HEADER_TIP_HEIGHT_KEY "preferred header tip"

end RawDb

/-- The database during an open, with the batches written so far. -/
structure Session where
  db : RawDb
  written : List WriteBatch

abbrev Opening := Stateful Session StorageError

def syncWrite (batch : WriteBatch) : Opening Unit :=
  modify fun s => ⟨s.db.write batch, s.written ++ [batch]⟩

def syncPut (key value : Bytes) : Opening Unit := syncWrite [(key, some value)]

/-- The copy of the active tip, for a database without a preferred header tip. -/
def copyTip (activeTip preferredTip : Option (Hash256 × UInt64)) : WriteBatch :=
  match preferredTip, activeTip with
  | none, some (id, height) =>
    [(PREFERRED_HEADER_TIP_ID_KEY, some (Hash256.asBytes id)),
     (PREFERRED_HEADER_TIP_HEIGHT_KEY, some (leBytes 8 height.toNat))]
  | _, _ => []

def finalBatch (activeTip preferredTip : Option (Hash256 × UInt64)) : WriteBatch :=
  copyTip activeTip preferredTip ++
    [(SCHEMA_KEY, some (encodeSchemaVersion SCHEMA_VERSION)), (SCHEMA_MIGRATION_KEY, none)]

/-- Whether an earlier migration has left its marker. -/
def markerPresent (db : RawDb) : Except StorageError Bool :=
  match db.chainMeta[SCHEMA_MIGRATION_KEY]? with
  | some bytes => do
    let marker ← decodeMigrationMarker bytes
    ensure (marker = (LEGACY_SCHEMA_VERSION_1_0, SCHEMA_VERSION))
      (.corruptData "migration marker does not match storage 1.0 -> 1.1 migration")
    pure true
  | none => pure false

def runMigration10To11 : Opening Unit := do
  let expectedMarker := encodeMigrationMarker LEGACY_SCHEMA_VERSION_1_0 SCHEMA_VERSION
  let s ← get
  let present ← check (markerPresent s.db)
  let activeTip ← check s.db.activeTip
  let preferredTip ← check s.db.preferredHeaderTip
  check (ensure (preferredTip = none ∨ activeTip = preferredTip)
    (.corruptData "preferred header tip does not match legacy active tip during migration"))
  if present then syncWrite (finalBatch activeTip preferredTip)
  else do
    syncPut SCHEMA_MIGRATION_KEY expectedMarker
    syncWrite (finalBatch activeTip preferredTip)

/-- The error for a marker that a finished migration has left. -/
def staleMarker : StorageError :=
  .corruptData "schema migration marker is present for current schema"

def checkSchema : Opening Unit := do
  let s ← get
  match s.db.chainMeta[SCHEMA_KEY]? with
  | some bytes => do
    let version ← check (decodeSchemaVersion bytes)
    if version = LEGACY_SCHEMA_VERSION_1_0 then runMigration10To11
    else if version = SCHEMA_VERSION then
      check (ensure (s.db.chainMeta[SCHEMA_MIGRATION_KEY]? = none) staleMarker)
    else throw (.unsupportedSchema version)
  | none => do
    check (ensure (s.db.hasNoUserRecords = true)
      (.corruptData "missing schema version in non-empty database"))
    syncPut SCHEMA_KEY (encodeSchemaVersion SCHEMA_VERSION)

def openInternal : Opening Unit := do
  checkSchema
  let s ← get
  let _ ← check s.db.preferredHeaderTip
  pure ()

namespace RawDb

/-- How an open that is not interrupted ends. -/
def openResult (db : RawDb) : Except StorageError Unit := (perform openInternal ⟨db, []⟩).1

/-- The batches that an open writes, in order. -/
def openWrites (db : RawDb) : List WriteBatch := (perform openInternal ⟨db, []⟩).2.written

/-- What an open leaves that is interrupted after its first `n` writes. -/
def interrupted (db : RawDb) (n : ℕ) : RawDb := (db.openWrites.take n).foldl write db

/-- What an open leaves that is not interrupted. -/
def opened (db : RawDb) : RawDb := (perform openInternal ⟨db, []⟩).2.db

end RawDb

end Oregon
