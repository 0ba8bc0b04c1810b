import Oregon.Sanity.Records
import Oregon.Sanity.Utxo
import Oregon.Spec.Migration

/-! The records of the database have one encoding: what a decoder accepts is the encoding of what
it returns. -/

namespace Oregon

open Lib

section Fields

variable {α : Type} {context : String} {p : Decoder α} {c c' : Cursor} {a : α}

theorem field_ok : field context p c = .ok (a, c') ↔ p c = .ok (a, c') := mapError_eq_ok

theorem fieldByte_ok {b : UInt8} (h : field context readByte c = .ok (b, c')) :
    c.rest = b :: c'.rest :=
  readByte_consumes _ _ _ (field_ok.mp h)

theorem fieldNat_ok {n : UInt64} (h : field context readU64 c = .ok (n, c')) :
    c.rest = leBytes 8 n.toNat ++ c'.rest :=
  readU64_consumes _ _ _ (field_ok.mp h)

theorem fieldBytes_ok {n : ℕ} {bytes : Bytes} (h : field context (readBytes n) c = .ok (bytes, c')) :
    bytes.length = n ∧ c.rest = bytes ++ c'.rest :=
  readBytes_consumes (field_ok.mp h)

theorem fieldLen_ok {max n : ℕ} (hmax : max < 2 ^ 64)
    (h : field context (readLen (UInt64.ofNat max)) c = .ok (n, c')) :
    n ≤ max ∧ c.rest = writeVarint n ++ c'.rest := by
  have hlen := field_ok.mp h
  have hle := readLen_le hlen
  rw [UInt64.toNat_ofNat_of_lt' hmax] at hle
  exact ⟨hle, readLen_consumes _ _ _ _ hlen⟩

theorem decodeRecord_ok {bytes : Bytes} {p : StorageCursor α}
    (h : decodeRecord context p bytes = .ok a) :
    ∃ c', p ⟨bytes, 0⟩ = .ok (a, c') ∧ c'.rest = [] := by
  simp only [decodeRecord, bind_eq_ok, ensure_eq_ok, exists_unit, pure_eq_ok] at h
  simp_all

theorem decodeFlag_ok {invalid : String} {value : UInt8} {b : Bool}
    (h : decodeFlag invalid value = .ok b) : value = encodeFlag b := by
  unfold decodeFlag at h
  split_ifs at h with hzero hone
  · obtain rfl := Except.ok.inj h
    exact hzero
  · obtain rfl := Except.ok.inj h
    exact hone

theorem decodeValidationStatus_ok {value : UInt8} {status : ValidationStatus}
    (h : decodeValidationStatus value = .ok status) : value = encodeValidationStatus status := by
  unfold decodeValidationStatus at h
  split_ifs at h with hzero hone htwo
  · obtain rfl := Except.ok.inj h
    exact hzero
  · obtain rfl := Except.ok.inj h
    exact hone
  · obtain rfl := Except.ok.inj h
    exact htwo

theorem decodeOutpointKey_ok {bytes : Bytes} {o : OutPoint} (h : decodeOutpointKey bytes = .ok o) :
    bytes = encodeOutpointKey o := by
  simp only [decodeOutpointKey, bind_eq_ok, ensure_eq_ok, exists_unit, mapError_eq_ok,
    pure_eq_ok] at h
  obtain ⟨hlength, txid, htxid, rfl⟩ := h
  have hdrop : (bytes.drop 32).length = 4 := by rw [List.length_drop, hlength]
  have hlt := readLE_lt (bytes.drop 32)
  have hback := leBytes_readLE (bytes.drop 32)
  grind [encodeOutpointKey, fromSlice_ok, UInt32.toNat_ofNat_of_lt', List.take_append_drop]

/-- A first byte other than zero decides how many bytes a number takes. -/
theorem log2_readLE {bytes : Bytes} {b : UInt8} (hb : b ≠ 0) :
    (readLE (bytes.reverse ++ [b])).log2 / 8 = bytes.length := by
  have hpos : 0 < b.toNat := Nat.pos_of_ne_zero fun h => hb (UInt8.toNat_inj.mp h)
  have hlt := readLE_lt (bytes.reverse ++ [b])
  rw [List.length_append, List.length_reverse, List.length_singleton] at hlt
  have hle : 256 ^ bytes.length ≤ readLE (bytes.reverse ++ [b]) := by
    rw [readLE_append, List.length_reverse]
    calc 256 ^ bytes.length ≤ 256 ^ bytes.length * readLE [b] := Nat.le_mul_of_pos_right _ (by
          simpa [readLE] using hpos)
      _ ≤ _ := Nat.le_add_left ..
  have hne : readLE (bytes.reverse ++ [b]) ≠ 0 := by omega
  have hpow : ∀ k, (256 : ℕ) ^ k = 2 ^ (8 * k) := fun k => by rw [pow_mul]; rfl
  rw [hpow] at hle hlt
  have hlow := (Nat.le_log2 hne).mpr hle
  have hhigh := (Nat.log2_lt hne).mpr hlt
  omega

/-- A canonical number has no other bytes. -/
theorem fromCanonicalBeBytes_ok {bytes : Bytes} {work : ℕ}
    (h : fromCanonicalBeBytes bytes = some work) : bytes = canonicalBeBytes work := by
  unfold fromCanonicalBeBytes at h
  split_ifs at h with hcanonical
  obtain rfl := Option.some.inj h
  cases bytes with
  | nil => simp at hcanonical
  | cons b bytes =>
    have hlength : (readLE (b :: bytes).reverse).log2 / 8 + 1 = (b :: bytes).reverse.length := by
      rw [List.length_reverse, List.reverse_cons, List.length_cons]
      by_cases hb : b = 0
      · -- a zero stands alone
        have hnil : bytes = [] := by simp_all
        subst hb hnil
        rfl
      · rw [log2_readLE hb]
    rw [canonicalBeBytes, hlength, leBytes_readLE, List.reverse_reverse]

theorem fromCanonicalBeBytes_lt {bytes : Bytes} {work : ℕ}
    (h : fromCanonicalBeBytes bytes = some work) (hlength : bytes.length ≤ MAX_CHAINWORK_BYTES) :
    work < 2 ^ 320 := by
  unfold fromCanonicalBeBytes at h
  split_ifs at h
  have hlt := readLE_lt bytes.reverse
  rw [List.length_reverse] at hlt
  rw [← Option.some.inj h]
  calc readLE bytes.reverse < 256 ^ bytes.length := hlt
    _ ≤ 256 ^ MAX_CHAINWORK_BYTES := Nat.pow_le_pow_right (by decide) hlength
    _ = 2 ^ 320 := by rw [MAX_CHAINWORK_BYTES, show 256 = 2 ^ 8 from rfl, ← pow_mul]

end Fields

section Records

variable {c c' : Cursor}

theorem readUtxoEntry_ok {e : UtxoEntry} (h : readUtxoEntry c = .ok (e, c')) :
    e.Fits ∧ c.rest = e.bytes ++ c'.rest := by
  simp only [readUtxoEntry, reader_bind_ok, reader_pure_ok, checked_ok, ensure_eq_ok,
    mapError_eq_ok] at h
  obtain ⟨version, c₁, hversion, _, _, ⟨rfl, rfl⟩, units, c₂, hunits, value, _, ⟨hvalue, rfl⟩,
    height, c₃, hheight, flag, c₄, hflag, coinbase, _, ⟨hcoinbase, rfl⟩, n, c₅, hn, program, c₆,
    hprogram, rfl, rfl⟩ := h
  obtain ⟨hle, hlen⟩ := fieldLen_ok (by decide) hn
  obtain ⟨rfl, hbytes⟩ := fieldBytes_ok hprogram
  refine ⟨⟨hle, height.toNat_lt⟩, ?_⟩
  rw [fieldByte_ok hversion, fieldNat_ok hunits, fieldNat_ok hheight, fieldByte_ok hflag, hlen,
    hbytes, decodeFlag_ok hcoinbase, ← fromBaseUnits_ok hvalue]
  simp [UtxoEntry.bytes, encodeItem]

theorem decodeUtxoEntry_ok {e : UtxoEntry} {bytes : Bytes} (h : decodeUtxoEntry bytes = .ok e) :
    e.Fits ∧ bytes = e.bytes := by
  simp only [decodeUtxoEntry, bind_eq_ok, exists_unit] at h
  obtain ⟨c', hread, hrest⟩ := decodeRecord_ok h.2
  obtain ⟨hfits, hbytes⟩ := readUtxoEntry_ok hread
  simp_all

theorem requireNextOutpoint_sorted {previous : Option OutPoint} {o : OutPoint}
    {rest : List OutPoint} {context : String} (h : requireNextOutpoint previous o context = .ok ())
    (hrest : strictlySorted (o :: rest) = true) :
    strictlySorted (previous.toList ++ o :: rest) = true := by
  cases previous with
  | none => exact hrest
  | some p => exact Bool.and_eq_true_iff.mpr ⟨ensure_eq_ok.mp h, hrest⟩

theorem readSpent_ok {n : ℕ} {previous : Option OutPoint} {l : List (OutPoint × UtxoEntry)}
    (h : readSpent n previous c = .ok (l, c')) : l.length = n ∧ (∀ p ∈ l, p.2.Fits) ∧
      strictlySorted (previous.toList ++ l.map Prod.fst) = true ∧
      c.rest = l.flatMap spentBytes ++ c'.rest := by
  induction n generalizing previous l c with
  | zero =>
    obtain ⟨rfl, rfl⟩ := reader_pure_ok.mp h
    cases previous <;> simp [strictlySorted]
  | succ n ih =>
    simp only [readSpent, reader_bind_ok, reader_pure_ok, checked_ok] at h
    obtain ⟨key, c₁, hkey, o, _, ⟨ho, rfl⟩, _, _, ⟨hnext, rfl⟩, m, c₂, hm, bytes, c₃, hbytes, entry,
      _, ⟨hentry, rfl⟩, rest, c₄, hrest, rfl, rfl⟩ := h
    obtain ⟨hlength, hfits, hsorted, hread⟩ := ih hrest
    obtain ⟨hfit, rfl⟩ := decodeUtxoEntry_ok hentry
    obtain ⟨-, hkey⟩ := fieldBytes_ok hkey
    obtain ⟨-, hlen⟩ := fieldLen_ok (by decide) hm
    obtain ⟨rfl, hitem⟩ := fieldBytes_ok hbytes
    refine ⟨congrArg Nat.succ hlength, List.forall_mem_cons.mpr ⟨hfit, hfits⟩,
      requireNextOutpoint_sorted hnext hsorted, ?_⟩
    rw [hkey, decodeOutpointKey_ok ho, hlen, hitem, hread]
    simp [spentBytes, encodeItem]

theorem readCreated_ok {n : ℕ} {spent : List OutPoint} {previous : Option OutPoint}
    {l : List OutPoint} (h : readCreated spent n previous c = .ok (l, c')) : l.length = n ∧
      (∀ o ∈ l, o ∉ spent) ∧ strictlySorted (previous.toList ++ l) = true ∧
      c.rest = l.flatMap encodeOutpointKey ++ c'.rest := by
  induction n generalizing previous l c with
  | zero =>
    obtain ⟨rfl, rfl⟩ := reader_pure_ok.mp h
    cases previous <;> simp [strictlySorted]
  | succ n ih =>
    simp only [readCreated, reader_bind_ok, reader_pure_ok, checked_ok, ensure_eq_ok] at h
    obtain ⟨key, c₁, hkey, o, _, ⟨ho, rfl⟩, _, _, ⟨hnext, rfl⟩, _, _, ⟨hout, rfl⟩, rest, c₂, hrest,
      rfl, rfl⟩ := h
    obtain ⟨hlength, hdisjoint, hsorted, hread⟩ := ih hrest
    obtain ⟨-, hkey⟩ := fieldBytes_ok hkey
    refine ⟨congrArg Nat.succ hlength, List.forall_mem_cons.mpr ⟨hout, hdisjoint⟩,
      requireNextOutpoint_sorted hnext hsorted, ?_⟩
    rw [hkey, decodeOutpointKey_ok ho, hread, List.flatMap_cons, List.append_assoc]

theorem decodeBlockUndo_ok {undo : BlockUndo} {bytes : Bytes}
    (h : decodeBlockUndo bytes = .ok undo) : undo.Fits ∧ bytes = undo.bytes := by
  obtain ⟨c', hread, hrest⟩ := decodeRecord_ok h
  simp only [readBlockUndo, reader_bind_ok, reader_pure_ok, checked_ok, ensure_eq_ok] at hread
  obtain ⟨version, c₁, hversion, _, _, ⟨rfl, rfl⟩, n, c₂, hn, spent, c₃, hspent, m, c₄, hm, created,
    c₅, hcreated, rfl, rfl⟩ := hread
  obtain ⟨hn, hlen⟩ := fieldLen_ok (by decide) hn
  obtain ⟨hm, hlen'⟩ := fieldLen_ok (by decide) hm
  obtain ⟨rfl, hfits, hsorted, hspent⟩ := readSpent_ok hspent
  obtain ⟨rfl, hdisjoint, hsorted', hcreated⟩ := readCreated_ok hcreated
  refine ⟨⟨hn, hm, hsorted, hsorted', hdisjoint, hfits⟩, ?_⟩
  have hbytes : bytes = _ := fieldByte_ok hversion
  grind [BlockUndo.bytes]

theorem decodeBlockIndex_ok {r : BlockIndexRecord} {bytes : Bytes}
    (h : decodeBlockIndex bytes = .ok r) : r.Fits ∧ bytes = r.bytes := by
  simp only [decodeBlockIndex, bind_eq_ok, ensure_eq_ok, exists_unit, pure_eq_ok] at h
  obtain ⟨_, hrecord, hparent, rfl⟩ := h
  obtain ⟨c', hread, hrest⟩ := decodeRecord_ok hrecord
  simp only [readBlockIndex, reader_bind_ok, reader_pure_ok, checked_ok, ensure_eq_ok,
    mapError_eq_ok, orElse_eq_ok] at hread
  obtain ⟨version, c₁, hversion, _, _, ⟨rfl, rfl⟩, headerBytes, c₂, hheader, header, _,
    ⟨hdecode, rfl⟩, parentBytes, c₃, hparentBytes, parent, _, ⟨hslice, rfl⟩, height, c₄, hheight, n,
    c₅, hn, workBytes, c₆, hworkBytes, work, _, ⟨hwork, rfl⟩, status, c₇, hstatus, validation, _,
    ⟨hvalidation, rfl⟩, flag, c₈, hflag, retained, _, ⟨hretained, rfl⟩, rfl, rfl⟩ := hread
  obtain ⟨-, hheader⟩ := fieldBytes_ok hheader
  obtain ⟨-, hparentBytes⟩ := fieldBytes_ok hparentBytes
  obtain ⟨hle, hlen⟩ := fieldLen_ok (by decide) hn
  obtain ⟨rfl, hitem⟩ := fieldBytes_ok hworkBytes
  refine ⟨⟨hparent, fromCanonicalBeBytes_lt hwork hle, height.toNat_lt⟩, ?_⟩
  have hbytes : bytes = _ := fieldByte_ok hversion
  rw [hbytes, hheader, ← decodeAll_reencode header_consumes hdecode, hparentBytes,
    fromSlice_ok hslice, fieldNat_ok hheight, hlen, hitem, fieldByte_ok hstatus,
    fieldByte_ok hflag, hrest, fromCanonicalBeBytes_ok hwork, decodeValidationStatus_ok hvalidation,
    decodeFlag_ok hretained, BlockIndexRecord.bytes]
  simp [encodeItem]

theorem pairwise_of_strictlySorted {l : List OutPoint} (h : strictlySorted l = true) :
    l.Pairwise fun a b => compare a b = .lt := by
  induction l with
  | nil => exact List.Pairwise.nil
  | cons a l ih =>
    cases l with
    | nil => exact List.pairwise_singleton _ a
    | cons b l =>
      obtain ⟨hab, hl⟩ := Bool.and_eq_true_iff.mp h
      have hrest := ih hl
      refine List.pairwise_cons.mpr ⟨List.forall_mem_cons.mpr ⟨eq_of_beq hab, fun c hc => ?_⟩, hrest⟩
      exact Std.TransCmp.lt_trans (eq_of_beq hab) ((List.pairwise_cons.mp hrest).1 c hc)

end Records

section Keys

theorem encodeOutpointKey_injective : Function.Injective encodeOutpointKey := by
  intro o o' h
  grind [decodeOutpointKey_encode]

/-- The chain metadata that has a key of its own. -/
inductive MetadataKind where
  | schema
  | schemaMigration
  | configAnchorId
  | configGenesisTimestamp
  | activeTipId
  | activeTipHeight
  | preferredHeaderTipId
  | preferredHeaderTipHeight
  | healthState
  | pruneCursor

def MetadataKind.key : MetadataKind → Bytes
  | .schema => SCHEMA_KEY
  | .schemaMigration => SCHEMA_MIGRATION_KEY
  | .configAnchorId => CONFIG_ANCHOR_ID_KEY
  | .configGenesisTimestamp => CONFIG_GENESIS_TIMESTAMP_KEY
  | .activeTipId => ACTIVE_TIP_ID_KEY
  | .activeTipHeight => ACTIVE_TIP_HEIGHT_KEY
  | .preferredHeaderTipId => PREFERRED_HEADER_TIP_ID_KEY
  | .preferredHeaderTipHeight => PREFERRED_HEADER_TIP_HEIGHT_KEY
  | .healthState => HEALTH_STATE_KEY
  | .pruneCursor => PRUNE_CURSOR_KEY

/-- What a row of the chain metadata is about. -/
inductive MetadataRow where
  | single (kind : MetadataKind)
  | activeHeight (height : UInt64)

def MetadataRow.key : MetadataRow → Bytes
  | .single kind => kind.key
  | .activeHeight height => activeHeightKey height

theorem activeHeightKey_length (height : UInt64) : (activeHeightKey height).length = 15 := by
  rfl

theorem activeHeightKey_injective : Function.Injective activeHeightKey := by
  intro a b h
  have hbytes := List.reverse_injective (List.append_cancel_left h)
  exact UInt64.toNat_inj.mp (leBytes_inj a.toNat_lt b.toNat_lt hbytes)

theorem MetadataKind.key_injective : Function.Injective MetadataKind.key := by
  intro a b h
  cases a <;> cases b <;> first | rfl | exact absurd h (by decide)

/-- No other key is as long as the key of a height. -/
theorem MetadataKind.key_length (kind : MetadataKind) : kind.key.length ≠ 15 := by
  cases kind <;> decide

theorem MetadataRow.key_injective : Function.Injective MetadataRow.key := by
  intro a b h
  cases a with
  | single kind =>
    cases b with
    | single kind' => rw [MetadataKind.key_injective h]
    | activeHeight height =>
      have hlength : kind.key.length = 15 := by
        rw [show kind.key = activeHeightKey height from h, activeHeightKey_length]
      exact absurd hlength kind.key_length
  | activeHeight height =>
    cases b with
    | single kind =>
      have hlength : kind.key.length = 15 := by
        rw [← show activeHeightKey height = kind.key from h, activeHeightKey_length]
      exact absurd hlength kind.key_length
    | activeHeight height' => rw [activeHeightKey_injective h]

end Keys

section Canonical

/-- Accepted bytes are the encoding of their value, so other bytes are rejected or have another
value. -/
structure RecordCanonical {α : Type} (encode : α → Except StorageError Bytes)
    (decode : Bytes → Except StorageError α) : Prop where
  reencodes : ∀ bytes a, decode bytes = .ok a → encode a = .ok bytes
  corrupted : ∀ bytes bytes' a, decode bytes = .ok a → bytes' ≠ bytes → decode bytes' ≠ .ok a

theorem RecordCanonical.of_reencodes {α : Type} {encode : α → Except StorageError Bytes}
    {decode : Bytes → Except StorageError α}
    (h : ∀ bytes a, decode bytes = .ok a → encode a = .ok bytes) : RecordCanonical encode decode where
  reencodes := h
  corrupted bytes bytes' a hbytes hne hbytes' := by
    grind

structure BlockUndo.Ordered (undo : BlockUndo) : Prop where
  spent : (undo.spent.map Prod.fst).Pairwise fun a b => compare a b = .lt
  created : undo.created.Pairwise fun a b => compare a b = .lt
  disjoint : (undo.spent.map Prod.fst).Disjoint undo.created

theorem BlockUndo.Fits.ordered {undo : BlockUndo} (h : undo.Fits) : undo.Ordered where
  spent := pairwise_of_strictlySorted h.spentSorted
  created := pairwise_of_strictlySorted h.createdSorted
  disjoint _ hspent hcreated := h.disjoint _ hcreated hspent

/-- Records of the database have one encoding, undo data is in order, and no two rows of the chain
metadata share a key. -/
theorem records_canonical : RecordCanonical encodeUtxoEntry decodeUtxoEntry ∧
    RecordCanonical encodeBlockUndo decodeBlockUndo ∧
    RecordCanonical encodeBlockIndex decodeBlockIndex ∧
    (∀ bytes undo, decodeBlockUndo bytes = .ok undo → undo.Ordered) ∧
    Function.Injective encodeOutpointKey ∧ Function.Injective MetadataRow.key := by
  refine ⟨RecordCanonical.of_reencodes fun bytes e h => ?_,
    RecordCanonical.of_reencodes fun bytes undo h => ?_,
    RecordCanonical.of_reencodes fun bytes r h => ?_, fun bytes undo h => ?_,
    encodeOutpointKey_injective, MetadataRow.key_injective⟩
  · obtain ⟨hfits, rfl⟩ := decodeUtxoEntry_ok h
    exact hfits.encode
  · obtain ⟨hfits, rfl⟩ := decodeBlockUndo_ok h
    exact hfits.encode
  · obtain ⟨hfits, rfl⟩ := decodeBlockIndex_ok h
    exact hfits.encode
  · exact (decodeBlockUndo_ok h).1.ordered

/-- A record of one spent output and one created output. -/
def Sample.undoBytes : Bytes :=
  [1, 1] ++ List.replicate 36 0 ++ [20, 1, 5, 0, 0, 0, 0, 0, 0, 0, 7, 0, 0, 0, 0, 0, 0, 0, 0, 1, 9] ++
    [1] ++ List.replicate 35 0 ++ [1]

theorem records_canonical_sample : ∃ undo, decodeBlockUndo Sample.undoBytes = .ok undo ∧
    encodeBlockUndo undo = .ok Sample.undoBytes ∧ undo.Ordered := by
  have hdecode : decodeBlockUndo Sample.undoBytes = .ok
      ⟨[(⟨0, 0⟩, ⟨⟨⟨5, by decide⟩, [9]⟩, 7, false⟩)], [⟨0, 0x01000000⟩]⟩ := rfl
  have hall := records_canonical
  exact ⟨_, hdecode, hall.2.1.reencodes _ _ hdecode, hall.2.2.2.1 _ _ hdecode⟩

end Canonical

end Oregon
