import Oregon.Sanity.Codec
import Oregon.Spec.RecordDecoding

/-! The bounds of the storage format. A record within them is accepted by its encoder and
read back from its bytes as it was written. -/

namespace Oregon

open Lib

abbrev RecordReads {α : Type} (p : StorageCursor α) (x : α) (bs : Bytes) : Prop :=
  Reads (2 ^ 64) True p x bs

theorem field_reads {α : Type} {context : String} {p : Decoder α} {x : α} {bs : Bytes}
    (h : DecodesTo True p x bs) : RecordReads (field context p) x bs := h.mapError _

theorem decodeRecord_encode {α : Type} {context : String} {p : StorageCursor α} {x : α}
    {bytes : Bytes} (hp : RecordReads p x bytes) (hlength : bytes.length < 2 ^ 64) :
    decodeRecord context p bytes = .ok x := by
  have hread := (hp [] 0 (by omega)).1 trivial
  rw [List.append_nil] at hread
  rw [decodeRecord, hread, ok_bind, ensure_ok rfl, ok_bind]
  rfl

/-- A length within its limit. -/
theorem fieldLen_reads {context : String} {n max : ℕ} (hn : n ≤ max) (hmax : max < 2 ^ 64) :
    RecordReads (field context (readLen (UInt64.ofNat max))) n (writeVarint n) := by
  have hnat : (UInt64.ofNat max).toNat = max := UInt64.toNat_ofNat_of_lt' hmax
  exact field_reads ((readLen_reads _ (lt_of_le_of_lt hn hmax)).congr
    (iff_of_true (hnat.symm ▸ hn) trivial))

theorem fieldNat_reads {context : String} {n : ℕ} (hn : n < 2 ^ 64) :
    RecordReads (field context readU64) (UInt64.ofNat n) (leBytes 8 n) := by
  grind [readU64_reads, UInt64.toNat_ofNat_of_lt', field_reads]

theorem decodeFlag_encodeFlag (invalid : String) (b : Bool) :
    decodeFlag invalid (encodeFlag b) = .ok b := by
  cases b <;> rfl

section Entries

/-- An entry that the storage format can hold. -/
structure UtxoEntry.Fits (e : UtxoEntry) : Prop where
  program : e.output.lockingProgram.length ≤ MAX_LOCKING_PROGRAM_BYTES
  height : e.creationHeight < 2 ^ 64

def UtxoEntry.bytes (e : UtxoEntry) : Bytes :=
  STORAGE_RECORD_VERSION :: (leBytes 8 e.output.value.baseUnits ++ leBytes 8 e.creationHeight ++
    [encodeFlag e.isCoinbase] ++ encodeItem e.output.lockingProgram)

variable {e : UtxoEntry}

theorem UtxoEntry.Fits.encode (h : e.Fits) : encodeUtxoEntry e = .ok e.bytes := by
  rw [encodeUtxoEntry, ensure_ok h.program, ok_bind]
  rfl

theorem UtxoEntry.Fits.bytes_length_le (h : e.Fits) : e.bytes.length ≤ MAX_UTXO_RECORD_BYTES := by
  have hprogram := h.program
  have hvarint := writeVarint_length_le e.output.lockingProgram.length
  simp only [UtxoEntry.bytes, encodeItem, List.length_cons, List.length_append, leBytes_length,
    List.length_nil, MAX_LOCKING_PROGRAM_BYTES, MAX_UTXO_RECORD_BYTES] at hprogram ⊢
  omega

theorem UtxoEntry.Fits.reads (h : e.Fits) : RecordReads readUtxoEntry e e.bytes := by
  have hunits : e.output.value.baseUnits < 2 ^ 64 :=
    lt_of_le_of_lt e.output.value.le_max (by decide)
  have hvalue : (Amount.fromBaseUnits (UInt64.ofNat e.output.value.baseUnits).toNat).mapError
      (primitiveError "invalid utxo value") = .ok e.output.value := by
    rw [UInt64.toNat_ofNat_of_lt' hunits, Amount.fromBaseUnits, dif_pos e.output.value.le_max,
      mapError_ok]
  have hbytes : e.bytes = [STORAGE_RECORD_VERSION] ++ (leBytes 8 e.output.value.baseUnits ++
      (leBytes 8 e.creationHeight ++ ([encodeFlag e.isCoinbase] ++
        (writeVarint e.output.lockingProgram.length ++ e.output.lockingProgram)))) := by
    rfl
  have hresult : (⟨⟨e.output.value, e.output.lockingProgram⟩,
      (UInt64.ofNat e.creationHeight).toNat, e.isCoinbase⟩ : UtxoEntry) = e := by
    rw [UInt64.toNat_ofNat_of_lt' h.height]
  refine (field_reads (readByte_reads _)).bind_true <| (checked_reads (ensure_ok rfl)).bind_true <|
    (fieldNat_reads hunits).bind_true <| (checked_reads hvalue).bind_true <|
    (fieldNat_reads h.height).bind_true <| (field_reads (readByte_reads _)).bind_true <|
    (checked_reads (decodeFlag_encodeFlag _ _)).bind_true <|
    (fieldLen_reads h.program (by decide)).bind_true <|
    (field_reads (readBytes_reads _)).bind_last ?_
  rw [hresult]
  exact Reads.pure e

theorem UtxoEntry.Fits.decode (h : e.Fits) : decodeUtxoEntry e.bytes = .ok e := by
  have hlength := h.bytes_length_le
  have hmax : MAX_UTXO_RECORD_BYTES = 65600 := rfl
  rw [decodeUtxoEntry, ensure_ok hlength, ok_bind, decodeRecord_encode h.reads (by omega)]

theorem encodeOutpointKey_length (o : OutPoint) : (encodeOutpointKey o).length = 36 := by
  simp [encodeOutpointKey, Hash256.asBytes]

theorem decodeOutpointKey_encode (o : OutPoint) :
    decodeOutpointKey (encodeOutpointKey o) = .ok o := by
  have hlength : (Hash256.asBytes o.txid).length = 32 := by simp [Hash256.asBytes]
  have htake : (encodeOutpointKey o).take 32 = Hash256.asBytes o.txid := List.take_left' hlength
  have hdrop : (encodeOutpointKey o).drop 32 = leBytes 4 o.index.toNat := List.drop_left' hlength
  rw [decodeOutpointKey, ensure_ok (encodeOutpointKey_length o), ok_bind, htake, hdrop,
    fromSlice_asBytes, mapError_ok, ok_bind, readLE_leBytes_of_lt o.index.toNat_lt,
    UInt32.ofNat_toNat]
  rfl

end Entries

section Undo

/-- An undo record that the storage format can hold. -/
structure BlockUndo.Fits (undo : BlockUndo) : Prop where
  spentCount : undo.spent.length ≤ MAX_UNDO_ENTRIES
  createdCount : undo.created.length ≤ MAX_UNDO_ENTRIES
  spentSorted : strictlySorted (undo.spent.map Prod.fst) = true
  createdSorted : strictlySorted undo.created = true
  disjoint : ∀ o ∈ undo.created, o ∉ undo.spent.map Prod.fst
  entries : ∀ p ∈ undo.spent, p.2.Fits

def spentBytes (p : OutPoint × UtxoEntry) : Bytes := encodeOutpointKey p.1 ++ encodeItem p.2.bytes

def BlockUndo.bytes (undo : BlockUndo) : Bytes :=
  STORAGE_RECORD_VERSION :: (writeVarint undo.spent.length ++ undo.spent.flatMap spentBytes ++
    writeVarint undo.created.length ++ undo.created.flatMap encodeOutpointKey)

variable {undo : BlockUndo}

theorem BlockUndo.Fits.encode_spent (h : undo.Fits) :
    (undo.spent.mapM fun (o, entry) => do
      let encoded ← encodeUtxoEntry entry
      pure (encodeOutpointKey o ++ encodeItem encoded)) = .ok (undo.spent.map spentBytes) := by
  refine mapM_eq_map fun p hp => ?_
  dsimp only
  rw [(h.entries p hp).encode, ok_bind]
  rfl

theorem BlockUndo.Fits.encode (h : undo.Fits) : encodeBlockUndo undo = .ok undo.bytes := by
  rw [encodeBlockUndo, ensure_ok ⟨h.spentCount, h.createdCount⟩, ok_bind]
  dsimp only
  rw [requireStrictlySorted, ensure_ok h.spentSorted, ok_bind, requireStrictlySorted,
    ensure_ok h.createdSorted, ok_bind, ensure_ok h.disjoint, ok_bind, h.encode_spent, ok_bind,
    ← List.flatMap_def]
  rfl

theorem requireNextOutpoint_ok {previous : Option OutPoint} {o : OutPoint} {rest : List OutPoint}
    (context : String) (h : strictlySorted (previous.toList ++ o :: rest) = true) :
    requireNextOutpoint previous o context = .ok () ∧ strictlySorted (o :: rest) = true := by
  cases previous with
  | none => exact ⟨ensure_ok rfl, h⟩
  | some p =>
    have hboth : (compare p o == .lt) = true ∧ strictlySorted (o :: rest) = true :=
      Bool.and_eq_true_iff.mp h
    exact ⟨ensure_ok hboth.1, hboth.2⟩

theorem fieldKey_reads (context : String) (o : OutPoint) :
    RecordReads (field context (readBytes 36)) (encodeOutpointKey o) (encodeOutpointKey o) := by
  have hread := readBytes_reads (encodeOutpointKey o)
  exact field_reads hread

theorem readSpent_reads {l : List (OutPoint × UtxoEntry)} (previous : Option OutPoint)
    (hfit : ∀ p ∈ l, p.2.Fits)
    (hsorted : strictlySorted (previous.toList ++ l.map Prod.fst) = true) :
    RecordReads (readSpent l.length previous) l (l.flatMap spentBytes) := by
  induction l generalizing previous with
  | nil => exact Reads.pure []
  | cons p l ih =>
    obtain ⟨o, entry⟩ := p
    have hentry : entry.Fits := hfit _ (List.mem_cons_self ..)
    obtain ⟨hnext, hrest⟩ := requireNextOutpoint_ok "spent undo outpoints" hsorted
    have ih := ih (some o) (fun q hq => hfit q (List.mem_cons_of_mem _ hq)) hrest
    rw [List.flatMap_cons, spentBytes, encodeItem, List.append_assoc, List.append_assoc]
    exact (fieldKey_reads _ o).bind_true <|
      (checked_reads (decodeOutpointKey_encode o)).bind_true <|
      (checked_reads hnext).bind_true <|
      (fieldLen_reads hentry.bytes_length_le (by decide)).bind_true <|
      (field_reads (readBytes_reads _)).bind_true <|
      (checked_reads hentry.decode).bind_true <| ih.bind_last <| Reads.pure _

theorem readCreated_reads {spent l : List OutPoint} (previous : Option OutPoint)
    (hdisjoint : ∀ o ∈ l, o ∉ spent) (hsorted : strictlySorted (previous.toList ++ l) = true) :
    RecordReads (readCreated spent l.length previous) l (l.flatMap encodeOutpointKey) := by
  induction l generalizing previous with
  | nil => exact Reads.pure []
  | cons o l ih =>
    obtain ⟨hnext, hrest⟩ := requireNextOutpoint_ok "created undo outpoints" hsorted
    have ih := ih (some o) (fun q hq => hdisjoint q (List.mem_cons_of_mem _ hq)) hrest
    have hnot := hdisjoint o (List.mem_cons_self ..)
    exact (fieldKey_reads _ o).bind_true <|
      (checked_reads (decodeOutpointKey_encode o)).bind_true <|
      (checked_reads hnext).bind_true <| (checked_reads (ensure_ok hnot)).bind_true <|
      ih.bind_last <| Reads.pure _

theorem BlockUndo.Fits.bytes_length (h : undo.Fits) : undo.bytes.length < 2 ^ 64 := by
  have hspent : (undo.spent.flatMap spentBytes).length ≤ undo.spent.length * 65645 := by
    refine length_flatMap_le fun p hp => ?_
    have hentry := (h.entries p hp).bytes_length_le
    have hvarint := writeVarint_length_le p.2.bytes.length
    simp only [spentBytes, encodeItem, List.length_append, encodeOutpointKey_length,
      MAX_UTXO_RECORD_BYTES] at hentry ⊢
    omega
  have hcreated : (undo.created.flatMap encodeOutpointKey).length ≤ undo.created.length * 36 :=
    length_flatMap_le fun o _ => (encodeOutpointKey_length o).le
  have hvarint := writeVarint_length_le undo.spent.length
  have hvarint' := writeVarint_length_le undo.created.length
  have hcount := h.spentCount
  have hcount' := h.createdCount
  simp only [BlockUndo.bytes, List.length_cons, List.length_append, MAX_UNDO_ENTRIES]
    at hcount hcount' ⊢
  omega

theorem BlockUndo.Fits.decode (h : undo.Fits) : decodeBlockUndo undo.bytes = .ok undo := by
  have hbytes : undo.bytes = [STORAGE_RECORD_VERSION] ++ (writeVarint undo.spent.length ++
      (undo.spent.flatMap spentBytes ++ (writeVarint undo.created.length ++
        undo.created.flatMap encodeOutpointKey))) := by
    simp only [BlockUndo.bytes, List.append_assoc]
    rfl
  have hreads : RecordReads readBlockUndo undo undo.bytes := by
    rw [hbytes]
    exact (field_reads (readByte_reads _)).bind_true <|
      (checked_reads (ensure_ok rfl)).bind_true <|
      (fieldLen_reads h.spentCount (by decide)).bind_true <|
      (readSpent_reads none h.entries h.spentSorted).bind_true <|
      (fieldLen_reads h.createdCount (by decide)).bind_true <|
      (readCreated_reads none h.disjoint h.createdSorted).bind_last <|
      Reads.pure undo
  exact decodeRecord_encode hreads h.bytes_length

end Undo

section Index

/-- An index record that the storage format can hold. -/
structure BlockIndexRecord.Fits (r : BlockIndexRecord) : Prop where
  parent : r.parent = r.header.previousBlock
  work : r.cumulativeWork < 2 ^ 320
  height : r.height < 2 ^ 64

def BlockIndexRecord.bytes (r : BlockIndexRecord) : Bytes :=
  STORAGE_RECORD_VERSION :: (r.header.encode ++ Hash256.asBytes r.parent ++ leBytes 8 r.height ++
    encodeItem (canonicalBeBytes r.cumulativeWork) ++
    [encodeValidationStatus r.validation, encodeFlag r.bodyRetained])

theorem canonicalBeBytes_length_le {work : ℕ} (h : work < 2 ^ 320) :
    (canonicalBeBytes work).length ≤ MAX_CHAINWORK_BYTES := by
  rw [canonicalBeBytes, List.length_reverse, leBytes_length, MAX_CHAINWORK_BYTES]
  rcases Nat.eq_zero_or_pos work with rfl | hpos
  · decide
  · have := (Nat.log2_lt (by omega)).mpr h
    omega

theorem leBytes_snoc (k n : ℕ) :
    leBytes (k + 1) n = leBytes k n ++ [UInt8.ofNat (n / 256 ^ k % 256)] := by
  induction k generalizing n with
  | zero => simp [leBytes]
  | succ k ih => rw [leBytes, ih, leBytes, List.cons_append, Nat.div_div_eq_div_mul, ← pow_succ']

theorem fromCanonicalBeBytes_canonical (work : ℕ) :
    fromCanonicalBeBytes (canonicalBeBytes work) = some work := by
  have hlow : work.log2 / 8 ≠ 0 → 256 ^ (work.log2 / 8) ≤ work := by
    intro hne
    have hself := Nat.log2_self_le (n := work) (by rintro rfl; exact hne (by decide))
    calc 256 ^ (work.log2 / 8) = 2 ^ (8 * (work.log2 / 8)) := by rw [pow_mul]; rfl
      _ ≤ 2 ^ work.log2 := Nat.pow_le_pow_right (by decide) (by omega)
      _ ≤ work := hself
  have hhigh : work < 256 ^ (work.log2 / 8 + 1) := by
    calc work < 2 ^ (work.log2 + 1) := Nat.lt_log2_self
      _ ≤ 2 ^ (8 * (work.log2 / 8 + 1)) := Nat.pow_le_pow_right (by decide) (by omega)
      _ = 256 ^ (work.log2 / 8 + 1) := by rw [pow_mul]; rfl
  have hread : readLE (canonicalBeBytes work).reverse = work := by
    rw [canonicalBeBytes, List.reverse_reverse, readLE_leBytes_of_lt hhigh]
  have hne : canonicalBeBytes work ≠ [] := by simp [canonicalBeBytes, leBytes]
  have hhead : ¬ (1 < (canonicalBeBytes work).length ∧
      (canonicalBeBytes work).head? = some 0) := by
    rintro ⟨hlong, hzero⟩
    rw [canonicalBeBytes, List.length_reverse, leBytes_length] at hlong
    rw [canonicalBeBytes, leBytes_snoc, List.reverse_append, List.reverse_singleton,
      List.singleton_append, List.head?_cons, Option.some.injEq] at hzero
    have hlow := hlow (by omega)
    have hpos : 0 < work / 256 ^ (work.log2 / 8) := Nat.div_pos hlow (by positivity)
    have hlt : work / 256 ^ (work.log2 / 8) < 256 := by
      rw [Nat.div_lt_iff_lt_mul (by positivity), ← pow_succ']
      exact hhigh
    have hbyte := congrArg UInt8.toNat hzero
    grind [UInt8.toNat_ofNat_of_lt']
  rw [fromCanonicalBeBytes, if_neg (by simp only [hne, false_or]; exact hhead), hread]

theorem decodeValidationStatus_encode (status : ValidationStatus) :
    decodeValidationStatus (encodeValidationStatus status) = .ok status := by
  cases status <;> rfl

variable {r : BlockIndexRecord}

theorem BlockIndexRecord.Fits.encode (h : r.Fits) : encodeBlockIndex r = .ok r.bytes := by
  have hheader : r.header.encode.length = BLOCK_HEADER_BYTES := r.header.encode_length
  rw [encodeBlockIndex, ensure_ok h.parent, ok_bind]
  dsimp only
  rw [ensure_ok (canonicalBeBytes_length_le h.work), ok_bind, ensure_ok hheader, ok_bind]
  rfl

theorem BlockIndexRecord.Fits.reads (h : r.Fits) : RecordReads readBlockIndex r r.bytes := by
  have hbytes : r.bytes = [STORAGE_RECORD_VERSION] ++ (r.header.encode ++
      (Hash256.asBytes r.parent ++ (leBytes 8 r.height ++
        (writeVarint (canonicalBeBytes r.cumulativeWork).length ++
          (canonicalBeBytes r.cumulativeWork ++ ([encodeValidationStatus r.validation] ++
            [encodeFlag r.bodyRetained])))))) := by
    simp only [BlockIndexRecord.bytes, encodeItem, List.append_assoc]
    rfl
  have hheader := readBytes_reads r.header.encode
  have hlength := r.header.encode_length
  have hdecode : (BlockHeader.decode r.header.encode).mapError
      (primitiveError "invalid block index header") = .ok r.header := by
    rw [BlockHeader.decode, decodeAll_encode (header_reads _) trivial (by omega), mapError_ok]
  have hparent := readBytes_reads (Hash256.asBytes r.parent)
  have hhash : (Hash256.fromSlice (Hash256.asBytes r.parent)).mapError
      (primitiveError "invalid block index parent") = .ok r.parent := by
    rw [fromSlice_asBytes, mapError_ok]
  have hwork : orElse (fromCanonicalBeBytes (canonicalBeBytes r.cumulativeWork))
      (StorageError.corruptData "non-canonical block index chainwork") = .ok r.cumulativeWork := by
    rw [fromCanonicalBeBytes_canonical, orElse_some]
  have hresult : (⟨r.header, r.parent, (UInt64.ofNat r.height).toNat, r.cumulativeWork,
      r.validation, r.bodyRetained⟩ : BlockIndexRecord) = r := by
    rw [UInt64.toNat_ofNat_of_lt' h.height]
  rw [hbytes]
  refine (field_reads (readByte_reads _)).bind_true <| (checked_reads (ensure_ok rfl)).bind_true <|
    (field_reads hheader).bind_true <| (checked_reads hdecode).bind_true <|
    (field_reads hparent).bind_true <| (checked_reads hhash).bind_true <|
    (fieldNat_reads h.height).bind_true <|
    (fieldLen_reads (canonicalBeBytes_length_le h.work) (by decide)).bind_true <|
    (field_reads (readBytes_reads _)).bind_true <| (checked_reads hwork).bind_true <|
    (field_reads (readByte_reads _)).bind_true <|
    (checked_reads (decodeValidationStatus_encode _)).bind_true <|
    (field_reads (readByte_reads _)).bind_last <|
    (checked_reads (decodeFlag_encodeFlag _ _)).bind_last ?_
  rw [hresult]
  exact Reads.pure r

theorem BlockIndexRecord.Fits.decode (h : r.Fits) : decodeBlockIndex r.bytes = .ok r := by
  have hlength : r.bytes.length < 2 ^ 64 := by
    have hwork := canonicalBeBytes_length_le h.work
    have hvarint := writeVarint_length_le (canonicalBeBytes r.cumulativeWork).length
    have hheader := r.header.encode_length
    simp only [BlockIndexRecord.bytes, encodeItem, List.length_cons, List.length_append,
      Hash256.asBytes, List.length_reverse, leBytes_length, List.length_nil, hheader,
      MAX_CHAINWORK_BYTES] at hwork ⊢
    omega
  rw [decodeBlockIndex, decodeRecord_encode h.reads hlength, ok_bind, ensure_ok h.parent, ok_bind]
  rfl

end Index

end Oregon
