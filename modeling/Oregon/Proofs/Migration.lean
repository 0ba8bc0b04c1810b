import Oregon.Sanity.Codec
import Oregon.Spec.Migration

/-! The migration survives crashes. Whatever prefix of its writes an open got to disk, the
database is still the legacy one, perhaps with the marker, or the finished one; both lead
to the same contents, and neither is refused. -/

namespace Oregon

open Lib Std

section Codec

theorem decodeU16Be_encode (n : UInt16) : decodeU16Be (encodeU16Be n) = n := by
  rw [decodeU16Be, encodeU16Be, List.reverse_reverse, readLE_leBytes_of_lt n.toNat_lt,
    UInt16.ofNat_toNat]

theorem encodeU16Be_length (n : UInt16) : (encodeU16Be n).length = 2 := by simp [encodeU16Be]

theorem decodeSchemaVersion_encode (version : SchemaVersion) :
    decodeSchemaVersion (encodeSchemaVersion version) = .ok version := by
  have hmajor := encodeU16Be_length version.major
  have hlength : (encodeSchemaVersion version).length = 4 := by
    rw [encodeSchemaVersion, List.length_append, hmajor, encodeU16Be_length]
  rw [decodeSchemaVersion, ensure_ok hlength, ok_bind, encodeSchemaVersion,
    List.take_left' hmajor, List.drop_left' hmajor, decodeU16Be_encode, decodeU16Be_encode]
  rfl

theorem decodeHash_asBytes (id : Hash256) (context : String) :
    decodeHash (Hash256.asBytes id) context = .ok id := by
  rw [decodeHash, fromSlice_asBytes, mapError_ok]

theorem decodeU64Le_leBytes (n : UInt64) (context : String) :
    decodeU64Le (leBytes 8 n.toNat) context = .ok n := by
  rw [decodeU64Le, ensure_ok (leBytes_length 8 _), ok_bind, readLE_leBytes_of_lt n.toNat_lt,
    UInt64.ofNat_toNat]
  rfl

end Codec

/-- The marker of this migration. -/
def expectedMarker : Bytes := encodeMigrationMarker LEGACY_SCHEMA_VERSION_1_0 SCHEMA_VERSION

namespace RawDb

/-- A database of version 1.0 that the migration accepts, with the tips that it reads. -/
structure Legacy (db : RawDb) (active preferred : Option (Hash256 × UInt64)) : Prop where
  schema : db.chainMeta[SCHEMA_KEY]? = some (encodeSchemaVersion LEGACY_SCHEMA_VERSION_1_0)
  marker : db.chainMeta[SCHEMA_MIGRATION_KEY]? = none ∨ markerPresent db = .ok true
  activeTip : db.activeTip = .ok active
  preferredTip : db.preferredHeaderTip = .ok preferred
  agree : preferred = none ∨ active = preferred

/-- A database of version 1.1 without a marker. -/
structure Current (db : RawDb) : Prop where
  schema : db.chainMeta[SCHEMA_KEY]? = some (encodeSchemaVersion SCHEMA_VERSION)
  marker : db.chainMeta[SCHEMA_MIGRATION_KEY]? = none
  preferredTip : ∃ preferred, db.preferredHeaderTip = .ok preferred

variable {db : RawDb} {active preferred : Option (Hash256 × UInt64)}

/-- What the migration makes of a legacy database. -/
def migrated (db : RawDb) (active preferred : Option (Hash256 × UInt64)) : RawDb :=
  db.write (finalBatch active preferred)

/-- The database with the marker, between the two writes. -/
def marked (db : RawDb) : RawDb := db.write [(SCHEMA_MIGRATION_KEY, some expectedMarker)]

theorem readTipPair_congr {db' : RawDb} {idKey heightKey : Bytes} {context : String}
    (hid : db'.chainMeta[idKey]? = db.chainMeta[idKey]?)
    (hheight : db'.chainMeta[heightKey]? = db.chainMeta[heightKey]?) :
    db'.readTipPair idKey heightKey context = db.readTipPair idKey heightKey context := by
  rw [readTipPair, readTipPair, hid, hheight]

theorem lookup_marked (key : Bytes) : db.marked.chainMeta[key]? =
    if SCHEMA_MIGRATION_KEY = key then some expectedMarker else db.chainMeta[key]? :=
  lookup_insert _ _ _ _

theorem lookup_migrated (db : RawDb) (active preferred : Option (Hash256 × UInt64)) (key : Bytes) :
    (db.migrated active preferred).chainMeta[key]? =
    if SCHEMA_MIGRATION_KEY = key then none
    else if SCHEMA_KEY = key then some (encodeSchemaVersion SCHEMA_VERSION)
    else (applyChanges (copyTip active preferred) db.chainMeta)[key]? := by
  rw [migrated, write, finalBatch, applyChanges_append, applyChanges_cons, applyChanges_cons,
    applyChanges_nil, lookup_applyChange, lookup_applyChange]

theorem Legacy.marked (h : db.Legacy active preferred) : db.marked.Legacy active preferred := by
  have hother (key : Bytes) (hne : SCHEMA_MIGRATION_KEY ≠ key) :
      db.marked.chainMeta[key]? = db.chainMeta[key]? := by rw [lookup_marked, if_neg hne]
  refine ⟨?_, .inr ?_, ?_, ?_, h.agree⟩
  · rw [hother _ (by decide), h.schema]
  · rw [markerPresent, lookup_marked, if_pos rfl]
    decide
  · rw [RawDb.activeTip, readTipPair_congr (hother _ (by decide)) (hother _ (by decide))]
    exact h.activeTip
  · rw [preferredHeaderTip, readTipPair_congr (hother _ (by decide)) (hother _ (by decide))]
    exact h.preferredTip

/-- The last batch deletes the marker, so it does not matter whether it was there. -/
theorem migrated_marked : db.marked.migrated active preferred = db.migrated active preferred := by
  have hmeta : (db.marked.migrated active preferred).chainMeta =
      (db.migrated active preferred).chainMeta := by
    refine ExtTreeMap.ext_getElem? fun key => ?_
    rw [lookup_migrated, lookup_migrated]
    split_ifs with hmarker hschema
    · rfl
    · rfl
    · exact lookup_applyChanges_congr (by rw [lookup_marked, if_neg hmarker]) _
  exact congrArg (fun m => { db with chainMeta := m }) hmeta

/-- The migrated database holds the tip that was there, or a copy of the active one. -/
theorem Legacy.migrated_preferred (h : db.Legacy active preferred) :
    ∃ tip, (db.migrated active preferred).preferredHeaderTip = .ok tip := by
  have hid := db.lookup_migrated active preferred PREFERRED_HEADER_TIP_ID_KEY
  have hheight := db.lookup_migrated active preferred PREFERRED_HEADER_TIP_HEIGHT_KEY
  rw [if_neg (by decide), if_neg (by decide)] at hid hheight
  by_cases hcopy : copyTip active preferred = []
  · rw [hcopy, applyChanges_nil] at hid hheight
    rw [preferredHeaderTip, readTipPair_congr hid hheight]
    exact ⟨preferred, h.preferredTip⟩
  · obtain ⟨rfl, id, height, rfl⟩ : preferred = none ∧ ∃ id height, active = some (id, height) := by
      cases preferred with
      | some tip => exact absurd rfl hcopy
      | none =>
        cases active with
        | none => exact absurd rfl hcopy
        | some tip => exact ⟨rfl, tip.1, tip.2, rfl⟩
    rw [copyTip, applyChanges_cons, applyChanges_cons, applyChanges_nil, lookup_applyChange,
      lookup_applyChange] at hid hheight
    have hne : PREFERRED_HEADER_TIP_HEIGHT_KEY ≠ PREFERRED_HEADER_TIP_ID_KEY := by decide
    rw [if_neg hne, if_pos rfl] at hid
    rw [if_pos rfl] at hheight
    refine ⟨some (id, height), ?_⟩
    rw [preferredHeaderTip, readTipPair, hid, hheight]
    dsimp only
    rw [decodeHash_asBytes, ok_bind, decodeU64Le_leBytes, ok_bind]
    rfl

theorem Legacy.current (h : db.Legacy active preferred) :
    (db.migrated active preferred).Current := by
  refine ⟨?_, ?_, h.migrated_preferred⟩
  · rw [lookup_migrated, if_neg (by decide), if_pos rfl]
  · rw [lookup_migrated, if_pos rfl]

theorem Current.perform_open (h : db.Current) (written : List WriteBatch) :
    perform openInternal ⟨db, written⟩ = (.ok (), ⟨db, written⟩) := by
  obtain ⟨preferred, hpreferred⟩ := h.preferredTip
  have hcheck : perform checkSchema ⟨db, written⟩ = (.ok (), ⟨db, written⟩) := by
    rw [checkSchema, perform_get_bind, h.schema]
    dsimp only
    rw [decodeSchemaVersion_encode, perform_check_ok, if_neg (by decide), if_pos rfl, h.marker]
    rfl
  rw [openInternal, perform_bind_ok hcheck, perform_get_bind, hpreferred, perform_check_ok]
  rfl

/-- The writes of an open of a legacy database. -/
def migrationWrites (db : RawDb) (active preferred : Option (Hash256 × UInt64)) :
    List WriteBatch :=
  (if db.chainMeta[SCHEMA_MIGRATION_KEY]? = none then
    [[(SCHEMA_MIGRATION_KEY, some expectedMarker)]] else []) ++ [finalBatch active preferred]

theorem Legacy.perform_migration (h : db.Legacy active preferred) :
    perform runMigration10To11 ⟨db, []⟩ =
      (.ok (), ⟨db.migrated active preferred, db.migrationWrites active preferred⟩) := by
  have hchecks (present : Bool) (hpresent : markerPresent db = .ok present) :
      perform runMigration10To11 ⟨db, []⟩ = perform
        (if present then syncWrite (finalBatch active preferred)
          else do
            syncPut SCHEMA_MIGRATION_KEY expectedMarker
            syncWrite (finalBatch active preferred)) ⟨db, []⟩ := by
    rw [runMigration10To11, perform_get_bind, hpresent, perform_check_ok, h.activeTip,
      perform_check_ok, h.preferredTip, perform_check_ok, ensure_ok h.agree, perform_check_ok]
    rfl
  by_cases hnone : db.chainMeta[SCHEMA_MIGRATION_KEY]? = none
  · have hpresent : markerPresent db = .ok false := by rw [markerPresent, hnone]; rfl
    rw [hchecks false hpresent, migrationWrites, if_pos hnone, ← migrated_marked]
    rfl
  · rw [hchecks true (h.marker.resolve_left hnone), migrationWrites, if_neg hnone]
    rfl

theorem Legacy.perform_open (h : db.Legacy active preferred) :
    perform openInternal ⟨db, []⟩ =
      (.ok (), ⟨db.migrated active preferred, db.migrationWrites active preferred⟩) := by
  obtain ⟨tip, htip⟩ := h.migrated_preferred
  have hcheck : perform checkSchema ⟨db, []⟩ =
      (.ok (), ⟨db.migrated active preferred, db.migrationWrites active preferred⟩) := by
    rw [checkSchema, perform_get_bind, h.schema]
    dsimp only
    rw [decodeSchemaVersion_encode, perform_check_ok, if_pos rfl, h.perform_migration]
  rw [openInternal, perform_bind_ok hcheck, perform_get_bind, htip, perform_check_ok]
  rfl

theorem legacy_of_openResult
    (hschema : db.chainMeta[SCHEMA_KEY]? = some (encodeSchemaVersion LEGACY_SCHEMA_VERSION_1_0))
    (hopen : db.openResult = .ok ()) : ∃ active preferred, db.Legacy active preferred := by
  have hperform : perform openInternal ⟨db, []⟩ = (.ok (), (perform openInternal ⟨db, []⟩).2) :=
    Prod.ext hopen rfl
  rw [openInternal, perform_bind_eq_ok] at hperform
  obtain ⟨_, s, hcheck, -⟩ := hperform
  rw [checkSchema, perform_get_bind, hschema] at hcheck
  dsimp only at hcheck
  rw [decodeSchemaVersion_encode, perform_check_ok, if_pos rfl, runMigration10To11,
    perform_get_bind] at hcheck
  simp only [perform_bind_eq_ok, perform_check, Prod.mk.injEq] at hcheck
  obtain ⟨present, _, ⟨hpresent, rfl⟩, active, _, ⟨hactive, rfl⟩, preferred, _, ⟨hpreferred, rfl⟩,
    _, _, ⟨hagree, rfl⟩, -⟩ := hcheck
  refine ⟨active, preferred, hschema, ?_, hactive, hpreferred, ensure_eq_ok.mp hagree⟩
  rw [markerPresent] at hpresent ⊢
  cases hmarker : db.chainMeta[SCHEMA_MIGRATION_KEY]? with
  | none => exact .inl rfl
  | some bytes =>
    rw [hmarker] at hpresent
    simp only [bind_eq_ok, pure_eq_ok] at hpresent ⊢
    simp_all

/-- Where the interrupted opens of a legacy database can leave it. -/
def Between (start db : RawDb) (active preferred : Option (Hash256 × UInt64)) : Prop :=
  (db.Legacy active preferred ∧ db.migrated active preferred = start.migrated active preferred) ∨
    db = start.migrated active preferred

theorem Between.interrupted {start : RawDb} (h : start.Legacy active preferred)
    (hdb : start.Between db active preferred) (n : ℕ) :
    start.Between (db.interrupted n) active preferred := by
  rcases hdb with ⟨hlegacy, hsame⟩ | rfl
  · have hwrites : db.openWrites = db.migrationWrites active preferred := by
      rw [openWrites, hlegacy.perform_open]
    rw [RawDb.interrupted, hwrites, migrationWrites]
    split_ifs with hmarker
    · -- the marker and the last batch
      rcases n with _ | _ | n
      · exact .inl ⟨hlegacy, hsame⟩
      · exact .inl ⟨hlegacy.marked, migrated_marked.trans hsame⟩
      · rw [List.take_of_length_le (by simp)]
        exact .inr (migrated_marked.trans hsame)
    · cases n with
      | zero => exact .inl ⟨hlegacy, hsame⟩
      | succ n =>
        rw [List.take_of_length_le (by simp)]
        exact .inr hsame
  · have hwrites : (start.migrated active preferred).openWrites = [] := by
      rw [openWrites, h.current.perform_open]
    rw [RawDb.interrupted, hwrites, List.take_nil]
    exact .inr rfl

/-- However often the opens of a legacy database are interrupted, each next one succeeds,
so none meets a marker that is out of place, and leaves what a single open would have left. -/
theorem migration_crash_safe
    (hschema : db.chainMeta[SCHEMA_KEY]? = some (encodeSchemaVersion LEGACY_SCHEMA_VERSION_1_0))
    (hopen : db.openResult = .ok ()) (db' : RawDb)
    (h : Relation.ReflTransGen (fun a b => ∃ n, b = a.interrupted n) db db') :
    db'.openResult = .ok () ∧ db'.opened = db.opened := by
  obtain ⟨active, preferred, hlegacy⟩ := legacy_of_openResult hschema hopen
  have hbetween : db.Between db' active preferred := by
    induction h with
    | refl => exact .inl ⟨hlegacy, rfl⟩
    | tail _ hstep ih =>
      obtain ⟨n, rfl⟩ := hstep
      exact ih.interrupted hlegacy n
  rw [openResult, opened, opened, hlegacy.perform_open]
  rcases hbetween with ⟨hlegacy', hsame⟩ | rfl
  · rw [hlegacy'.perform_open]
    exact ⟨rfl, hsame⟩
  · rw [hlegacy.current.perform_open]
    exact ⟨rfl, rfl⟩

/-- A legacy database with an active tip. -/
def legacySample : RawDb :=
  ⟨∅, ∅, ∅, ∅, applyChanges
    [(SCHEMA_KEY, some (encodeSchemaVersion LEGACY_SCHEMA_VERSION_1_0)),
     (ACTIVE_TIP_ID_KEY, some (Hash256.asBytes 7)),
     (ACTIVE_TIP_HEIGHT_KEY, some (leBytes 8 3))] ∅, ∅⟩

/-- A crash between the marker and the last batch, and one more before the next open writes. -/
theorem migration_crash_safe_sample : legacySample.openResult = .ok () ∧
    ((legacySample.interrupted 1).interrupted 0).openResult = .ok () ∧
    ((legacySample.interrupted 1).interrupted 0).opened = legacySample.opened := by
  have hopen : legacySample.openResult = .ok () := by decide +kernel
  have hsteps : Relation.ReflTransGen (fun a b : RawDb => ∃ n, b = a.interrupted n) legacySample
      ((legacySample.interrupted 1).interrupted 0) :=
    .tail (.tail .refl ⟨1, rfl⟩) ⟨0, rfl⟩
  exact ⟨hopen, migration_crash_safe (by decide +kernel) hopen _ hsteps⟩

end RawDb

end Oregon
