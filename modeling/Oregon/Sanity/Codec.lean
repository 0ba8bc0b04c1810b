import Oregon.Spec.Records

/-! What the bounded decoder makes of an encoding. A block is read back as it was
written exactly when it is within the limits, and nothing else ever comes out. -/

namespace Oregon

open Lib

/-- No input passes the range of `usize`. -/
abbrev DecodesTo {α : Type} (P : Prop) (p : Decoder α) (x : α) (bs : Bytes) : Prop :=
  Reads (2 ^ 64) P p x bs

theorem readU8_reads (b : UInt8) : DecodesTo True readU8 b [b] :=
  fun _ _ _ => ⟨fun _ => rfl, fun h => absurd trivial h⟩

theorem readBytes_reads (bs : Bytes) : DecodesTo True (readBytes bs.length) bs bs := by
  intro rest off hoff
  have hlen : ¬ 2 ^ 64 ≤ off + bs.length := Nat.not_le.mpr hoff
  have henough : ¬ (bs ++ rest).length < bs.length := by simp
  simp only [readBytes, hlen, henough, if_false]
  simp

theorem readByte_reads (b : UInt8) : DecodesTo True readByte b [b] :=
  (readBytes_reads [b]).bind_last (Reads.pure b)

/-- A reader of `k` bytes that reads them as a little-endian number. -/
theorem readLE_reads {α : Type} (k n : ℕ) (f : ℕ → α) (hn : n < 256 ^ k) :
    DecodesTo True (do let bytes ← readBytes k; pure (f (readLE bytes))) (f n) (leBytes k n) := by
  have h := (readBytes_reads (leBytes k n)).bind_last
    (f := fun bytes => pure (f (readLE bytes))) (Reads.pure (f (readLE (leBytes k n))))
  rwa [readLE_leBytes_of_lt hn, leBytes_length] at h

theorem readU16_reads (n : UInt16) : DecodesTo True readU16 n (leBytes 2 n.toNat) := by
  have h := readLE_reads 2 n.toNat UInt16.ofNat n.toNat_lt
  rwa [UInt16.ofNat_toNat] at h

theorem readU32_reads (n : UInt32) : DecodesTo True readU32 n (leBytes 4 n.toNat) := by
  have h := readLE_reads 4 n.toNat UInt32.ofNat n.toNat_lt
  rwa [UInt32.ofNat_toNat] at h

theorem readU64_reads (n : UInt64) : DecodesTo True readU64 n (leBytes 8 n.toNat) := by
  have h := readLE_reads 8 n.toNat UInt64.ofNat n.toNat_lt
  rwa [UInt64.ofNat_toNat] at h

/-- A marker and a number of `k` bytes that only this marker may carry. -/
theorem markerReads {α : Type} (k n : ℕ) (f : ℕ → α) (small : ℕ → Prop) [DecidablePred small]
    (g : α → ℕ) (out : α → UInt64) (hn : n < 256 ^ k) (hg : g (f n) = n) (hs : ¬ small n) :
    DecodesTo True (do
      let value ← (do let bytes ← readBytes k; pure (f (readLE bytes)) : Decoder α)
      if small (g value) then throw .nonCanonicalVarInt else pure (out value))
      (out (f n)) (leBytes k n) := by
  refine (readLE_reads k n f hn).bind_last ?_
  rw [hg, if_neg hs]
  exact Reads.pure _

theorem readVarint_reads {n : ℕ} (hn : n < 2 ^ 64) :
    DecodesTo True readVarint (UInt64.ofNat n) (writeVarint n) := by
  have hrun : ∀ (b : UInt8) (bs : Bytes) (x : UInt64), DecodesTo True
      (if b.toNat ≤ 0xfc then pure (UInt64.ofNat b.toNat)
        else if b = 0xfd then do
          let value ← readU16
          if value.toNat < 0xfd then throw .nonCanonicalVarInt
          else pure (UInt64.ofNat value.toNat)
        else if b = 0xfe then do
          let value ← readU32
          if value.toNat ≤ 0xffff then throw .nonCanonicalVarInt
          else pure (UInt64.ofNat value.toNat)
        else do
          let value ← readU64
          if value.toNat ≤ 0xffffffff then throw .nonCanonicalVarInt
          else pure value) x bs → DecodesTo True readVarint x (b :: bs) :=
    fun b bs x h => (readU8_reads b).bind_true h
  unfold writeVarint
  split_ifs with h8 h16 h32
  · have hb : (UInt8.ofNat n).toNat = n := UInt8.toNat_ofNat_of_lt' (by change n < 2 ^ 8; omega)
    refine hrun _ _ _ ?_
    rw [hb, if_pos h8]
    exact Reads.pure _
  · have hv : (UInt16.ofNat n).toNat = n := UInt16.toNat_ofNat_of_lt' (by change n < 2 ^ 16; omega)
    have h := markerReads 2 n UInt16.ofNat (· < 0xfd) UInt16.toNat
      (fun v => UInt64.ofNat v.toNat) (by omega) hv (by omega)
    rw [hv] at h
    exact hrun 0xfd _ _ h
  · have hv : (UInt32.ofNat n).toNat = n := UInt32.toNat_ofNat_of_lt' (by change n < 2 ^ 32; omega)
    have h := markerReads 4 n UInt32.ofNat (· ≤ 0xffff) UInt32.toNat
      (fun v => UInt64.ofNat v.toNat) (by omega) hv (by omega)
    rw [hv] at h
    exact hrun 0xfe _ _ h
  · have hv : (UInt64.ofNat n).toNat = n := UInt64.toNat_ofNat_of_lt' hn
    exact hrun 0xff _ _ (markerReads 8 n UInt64.ofNat (· ≤ 0xffffffff) UInt64.toNat id
      (by omega) hv (by omega))

theorem writeVarint_length_pos (n : ℕ) : 0 < (writeVarint n).length := by
  unfold writeVarint
  split_ifs <;> simp

theorem writeVarint_length_le (n : ℕ) : (writeVarint n).length ≤ 9 := by
  unfold writeVarint
  split_ifs <;> simp

/-- Heights and lengths below the range of `u64` are told apart by their encoding. -/
theorem writeVarint_inj {m n : ℕ} (hm : m < 2 ^ 64) (hn : n < 2 ^ 64)
    (h : writeVarint m = writeVarint n) : m = n := by
  have hlen : (writeVarint n).length < 2 ^ 64 := by
    unfold writeVarint
    split_ifs <;> simp
  have hrm := ((readVarint_reads hm) [] 0 (by rw [h]; omega)).1 trivial
  have hrn := ((readVarint_reads hn) [] 0 (by omega)).1 trivial
  grind [UInt64.toNat_ofNat_of_lt']

theorem readLen_reads {n : ℕ} (max : UInt64) (hn : n < 2 ^ 64) :
    DecodesTo (n ≤ max.toNat) (readLen max) n (writeVarint n) := by
  have hv : (UInt64.ofNat n).toNat = n := UInt64.toNat_ofNat_of_lt' hn
  refine (readVarint_reads hn).bind_last ?_
  rw [hv]
  intro rest off _
  split_ifs with hmax
  · exact ⟨fun h => absurd hmax (by omega), fun _ => ⟨_, rfl⟩⟩
  · exact ⟨fun _ => rfl, fun h => absurd (Nat.le_of_not_lt hmax) h⟩

theorem fromSlice_asBytes (x : Hash256) : Hash256.fromSlice (Hash256.asBytes x) = .ok x := by
  have hlength : (Hash256.asBytes x).length = 32 := by simp [Hash256.asBytes]
  rw [Hash256.fromSlice, if_pos hlength, Hash256.asBytes, List.reverse_reverse,
    readLE_leBytes_of_lt x.isLt, BitVec.ofNat_toNat, BitVec.setWidth_eq]

theorem asBytes_injective : Function.Injective Hash256.asBytes := fun x y h =>
  Except.ok.inj (by rw [← fromSlice_asBytes x, h, fromSlice_asBytes])

theorem readHash_reads (x : Hash256) : DecodesTo True readHash x (Hash256.asBytes x) := by
  have hlen : (Hash256.asBytes x).length = 32 := by simp [Hash256.asBytes]
  have hread := readBytes_reads (Hash256.asBytes x)
  refine hread.bind_last ?_
  rw [fromSlice_asBytes]
  exact Reads.pure x

/-- A byte string behind its length. -/
theorem readItem_reads (max : UInt64) (item : Bytes) :
    DecodesTo (item.length ≤ max.toNat) (readItem max) item (encodeItem item) := by
  intro rest off hoff
  have hlt : item.length < 2 ^ 64 := by
    rw [encodeItem, List.length_append] at hoff
    omega
  exact (((readLen_reads max hlt).bind fun _ => readBytes_reads item).congr (by simp)) rest off hoff

/-- A list behind its length, each of whose elements takes at least a byte. -/
theorem readMany_reads {α β : Type} {p : Decoder α} {enc : α → Bytes} {P : α → Prop} {Q : Prop}
    {xs : List α} {f : List α → Decoder β} {b : β} {bs : Bytes} (max : UInt64)
    (hpos : ∀ x ∈ xs, 0 < (enc x).length) (hp : ∀ x ∈ xs, DecodesTo (P x) p x (enc x))
    (hf : DecodesTo Q (f xs) b bs) :
    DecodesTo (xs.length ≤ max.toNat ∧ (∀ x ∈ xs, P x) ∧ Q)
      (do let n ← readLen max; let ys ← times n p; f ys) b
      (writeVarint xs.length ++ (xs.flatMap enc ++ bs)) := by
  intro rest off hoff
  have hlt : xs.length < 2 ^ 64 := by grind [length_le_flatMap]
  have hread := (readLen_reads max hlt).bind (f := fun n => times n p >>= f)
    fun _ => (Reads.times xs hp).bind fun _ => hf
  exact hread rest off hoff

theorem readU8_consumes : Consumes readU8 fun b => [b] := by
  rintro ⟨rest, off⟩ b c' h
  cases rest with
  | nil => cases h
  | cons b bs =>
    cases h
    rfl

theorem readBytes_consumes {n : ℕ} {c c' : Cursor} {bytes : Bytes}
    (h : readBytes n c = .ok (bytes, c')) : bytes.length = n ∧ c.rest = bytes ++ c'.rest := by
  grind [readBytes, List.take_append_drop]

theorem readByte_consumes : Consumes readByte fun b => [b] := by
  intro c b c' h
  simp only [readByte, reader_bind_ok, reader_pure_ok] at h
  obtain ⟨bytes, d, hbytes, rfl, rfl⟩ := h
  obtain ⟨hlength, hrest⟩ := readBytes_consumes hbytes
  obtain ⟨b, rfl⟩ := List.length_eq_one_iff.mp hlength
  exact hrest

/-- Bytes that are read as a number are the bytes of that number. -/
theorem readLE_consumes {α : Type} {n : ℕ} {f : ℕ → α} {toNat : α → ℕ}
    (hf : ∀ v, v < 256 ^ n → toNat (f v) = v) :
    Consumes (do let bytes ← readBytes n; pure (f (readLE bytes)) : Decoder α)
      fun x => leBytes n (toNat x) := by
  intro c x c' h
  simp only [reader_bind_ok, reader_pure_ok] at h
  obtain ⟨bytes, d, hbytes, rfl, rfl⟩ := h
  obtain ⟨rfl, hrest⟩ := readBytes_consumes hbytes
  dsimp only
  rw [hf _ (readLE_lt bytes), leBytes_readLE]
  exact hrest

theorem readU16_consumes : Consumes readU16 fun n => leBytes 2 n.toNat :=
  readLE_consumes fun _ h => UInt16.toNat_ofNat_of_lt' h

theorem readU32_consumes : Consumes readU32 fun n => leBytes 4 n.toNat :=
  readLE_consumes fun _ h => UInt32.toNat_ofNat_of_lt' h

theorem readU64_consumes : Consumes readU64 fun n => leBytes 8 n.toNat :=
  readLE_consumes fun _ h => UInt64.toNat_ofNat_of_lt' h

/-- The checks on the markers leave one encoding for each number. -/
theorem readVarint_consumes : Consumes readVarint fun n => writeVarint n.toNat := by
  intro c x c' h
  simp only [readVarint, reader_bind_ok] at h
  obtain ⟨marker, d, hmarker, h⟩ := h
  have hbyte : c.rest = marker :: d.rest := readU8_consumes c marker d hmarker
  have h256 := marker.toNat_lt
  split_ifs at h with h8 hfd hfe
  · obtain ⟨rfl, rfl⟩ := reader_pure_ok.mp h
    have hnat : (UInt64.ofNat marker.toNat).toNat = marker.toNat :=
      UInt64.toNat_ofNat_of_lt' (by change _ < 2 ^ 64; omega)
    dsimp only
    rw [hnat, writeVarint, if_pos h8, UInt8.ofNat_toNat]
    exact hbyte
  · simp only [reader_bind_ok] at h
    obtain ⟨value, e, hvalue, h⟩ := h
    have h16 := value.toNat_lt
    split_ifs at h with hsmall
    · exact absurd h reader_throw_ok
    · obtain ⟨rfl, rfl⟩ := reader_pure_ok.mp h
      have hnat : (UInt64.ofNat value.toNat).toNat = value.toNat :=
        UInt64.toNat_ofNat_of_lt' (by change _ < 2 ^ 64; omega)
      dsimp only
      rw [hnat, writeVarint,
        if_neg (by omega), if_pos (by omega), hbyte, hfd, readU16_consumes _ _ _ hvalue]
      rfl
  · simp only [reader_bind_ok] at h
    obtain ⟨value, e, hvalue, h⟩ := h
    have h32 := value.toNat_lt
    split_ifs at h with hsmall
    · exact absurd h reader_throw_ok
    · obtain ⟨rfl, rfl⟩ := reader_pure_ok.mp h
      have hnat : (UInt64.ofNat value.toNat).toNat = value.toNat :=
        UInt64.toNat_ofNat_of_lt' (by change _ < 2 ^ 64; omega)
      dsimp only
      rw [hnat, writeVarint,
        if_neg (by omega), if_neg (by omega), if_pos (by omega), hbyte, hfe,
        readU32_consumes _ _ _ hvalue]
      rfl
  · simp only [reader_bind_ok] at h
    obtain ⟨value, e, hvalue, h⟩ := h
    have hff : marker = 0xff := by
      have hne : marker.toNat ≠ 0xfd := fun heq => hfd (UInt8.toNat_inj.mp heq)
      have hne' : marker.toNat ≠ 0xfe := fun heq => hfe (UInt8.toNat_inj.mp heq)
      refine UInt8.toNat_inj.mp ?_
      change marker.toNat = 255
      omega
    split_ifs at h with hsmall
    · exact absurd h reader_throw_ok
    · obtain ⟨rfl, rfl⟩ := reader_pure_ok.mp h
      dsimp only
      rw [writeVarint, if_neg (by omega), if_neg (by omega), if_neg (by omega), hbyte, hff,
        readU64_consumes _ _ _ hvalue]
      rfl

theorem readLen_consumes (max : UInt64) : Consumes (readLen max) writeVarint := by
  intro c n c' h
  simp only [readLen, reader_bind_ok] at h
  obtain ⟨value, d, hvalue, h⟩ := h
  split_ifs at h with hmax
  · exact absurd h reader_throw_ok
  · obtain ⟨rfl, rfl⟩ := reader_pure_ok.mp h
    exact readVarint_consumes _ _ _ hvalue

theorem readLen_le {max : UInt64} {n : ℕ} {c c' : Cursor} (h : readLen max c = .ok (n, c')) :
    n ≤ max.toNat := by
  simp only [readLen, reader_bind_ok] at h
  obtain ⟨value, d, -, h⟩ := h
  split_ifs at h with hmax
  · exact absurd h reader_throw_ok
  · obtain ⟨rfl, rfl⟩ := reader_pure_ok.mp h
    exact Nat.le_of_not_lt hmax

theorem fromSlice_ok {bytes : Bytes} {x : Hash256} (h : Hash256.fromSlice bytes = .ok x) :
    bytes = Hash256.asBytes x := by
  unfold Hash256.fromSlice at h
  split_ifs at h with hlength
  obtain rfl := Except.ok.inj h
  have hlt : readLE bytes.reverse < 2 ^ 256 := by grind [readLE_lt, List.length_reverse]
  have hback := leBytes_readLE bytes.reverse
  rw [List.length_reverse, hlength] at hback
  rw [Hash256.asBytes, BitVec.toNat_ofNat, Nat.mod_eq_of_lt hlt, hback, List.reverse_reverse]

theorem readHash_consumes : Consumes readHash Hash256.asBytes := by
  intro c x c' h
  simp only [readHash, reader_bind_ok] at h
  obtain ⟨bytes, d, hbytes, h⟩ := h
  obtain ⟨-, hrest⟩ := readBytes_consumes hbytes
  cases hslice : Hash256.fromSlice bytes with
  | ok y =>
    rw [hslice] at h
    obtain ⟨rfl, rfl⟩ := reader_pure_ok.mp h
    rwa [fromSlice_ok hslice] at hrest
  | error e =>
    rw [hslice] at h
    exact absurd h reader_throw_ok

theorem readItem_consumes (max : UInt64) : Consumes (readItem max) encodeItem := by
  intro c item c' h
  simp only [readItem, reader_bind_ok] at h
  obtain ⟨n, d, hn, hbytes⟩ := h
  obtain ⟨rfl, hrest⟩ := readBytes_consumes hbytes
  rw [readLen_consumes max _ _ _ hn, hrest, encodeItem, List.append_assoc]

/-- A list behind its length. -/
theorem readMany_consumes {α : Type} {p : Decoder α} {enc : α → Bytes} (h : Consumes p enc)
    {max : UInt64} {n : ℕ} {c d c' : Cursor} {xs : List α} (hn : readLen max c = .ok (n, d))
    (hxs : times n p d = .ok (xs, c')) :
    c.rest = writeVarint xs.length ++ (xs.flatMap enc ++ c'.rest) := by
  obtain ⟨rfl, hrest⟩ := h.times n d xs c' hxs
  rw [readLen_consumes max _ _ _ hn, hrest]

section Limits

variable (limits : DecodeLimits)

def TxInput.Within (i : TxInput) : Prop :=
  i.witness.length ≤ limits.maxWitnessItemsPerInput.toNat ∧
    ∀ item ∈ i.witness, item.length ≤ limits.maxWitnessItemBytes.toNat

def TxOutput.Within (o : TxOutput) : Prop :=
  o.lockingProgram.length ≤ limits.maxLockingProgramBytes.toNat

/-- A transaction the decoder accepts: of version one and within the limits. -/
structure Transaction.Within (tx : Transaction) : Prop where
  version : tx.version = 1
  inputsLength : tx.inputs.length ≤ limits.maxTransactionInputs.toNat
  inputs : ∀ i ∈ tx.inputs, i.Within limits
  outputsLength : tx.outputs.length ≤ limits.maxTransactionOutputs.toNat
  outputs : ∀ o ∈ tx.outputs, o.Within limits

/-- A block the decoder accepts. -/
structure Block.Within (b : Block) : Prop where
  size : b.encode.length ≤ limits.maxObjectBytes.toNat
  count : b.transactions.length ≤ limits.maxBlockTransactions.toNat
  nonempty : b.transactions ≠ []
  transactions : ∀ tx ∈ b.transactions, tx.Within limits

theorem encodeItem_length_pos (item : Bytes) : 0 < (encodeItem item).length := by
  have := writeVarint_length_pos item.length
  rw [encodeItem, List.length_append]
  omega

theorem input_reads (i : TxInput) :
    DecodesTo (i.Within limits) (TxInput.decodeFrom limits) i i.encode := by
  refine Reads.congr (P := _ ∧ (∀ item ∈ i.witness, _) ∧ True) ?_ (by rw [and_true, TxInput.Within])
  have hbytes : i.encode = Hash256.asBytes i.previousTxid ++ (leBytes 4 i.previousOutputIndex.toNat ++
      (leBytes 4 i.sequence.toNat ++ (writeVarint i.witness.length ++
        (i.witness.flatMap encodeItem ++ [])))) := by
    simp only [TxInput.encode, List.append_assoc, List.append_nil]
  rw [hbytes]
  refine (readHash_reads _).bind_true ((readU32_reads _).bind_true ((readU32_reads _).bind_true ?_))
  exact readMany_reads _ (fun item _ => encodeItem_length_pos item)
    (fun item _ => readItem_reads limits.maxWitnessItemBytes item) (Reads.pure i)

theorem readAmount_reads (a : Amount) : DecodesTo True readAmount a (leBytes 8 a.baseUnits) := by
  have hlt : a.baseUnits < 2 ^ 64 := lt_of_le_of_lt a.le_max (by decide)
  have hv : (UInt64.ofNat a.baseUnits).toNat = a.baseUnits := UInt64.toNat_ofNat_of_lt' hlt
  have hback : Amount.fromBaseUnits a.baseUnits = .ok a := by
    rw [Amount.fromBaseUnits, dif_pos a.le_max]
  have hread := readU64_reads (UInt64.ofNat a.baseUnits)
  rw [hv] at hread
  refine hread.bind_last ?_
  rw [hv, hback]
  exact Reads.pure a

theorem output_reads (o : TxOutput) :
    DecodesTo (o.Within limits) (TxOutput.decodeFrom limits) o o.encode := by
  refine Reads.congr (P := _ ∧ True) ?_ (by rw [and_true, TxOutput.Within])
  rw [TxOutput.encode, ← List.append_nil (encodeItem _)]
  exact (readAmount_reads _).bind_true ((readItem_reads _ _).bind fun _ => Reads.pure o)

theorem transaction_reads (tx : Transaction) :
    DecodesTo (tx.Within limits) (Transaction.decodeFrom limits) tx tx.encode := by
  have hbytes : tx.encode = leBytes 2 tx.version.toNat ++ (writeVarint tx.inputs.length ++
      (tx.inputs.flatMap TxInput.encode ++ (writeVarint tx.outputs.length ++
        (tx.outputs.flatMap TxOutput.encode ++ (leBytes 8 tx.lockTime.toNat ++ []))))) := by
    simp only [Transaction.encode, List.append_assoc, List.append_nil]
  rw [hbytes]
  refine (readU16_reads _).bind_true ?_
  by_cases hv : tx.version = 1
  · rw [if_neg (not_not.mpr hv)]
    refine Reads.congr (readMany_reads _ (fun i _ => ?_) (fun i _ => input_reads limits i)
      (readMany_reads _ (fun o _ => ?_) (fun o _ => output_reads limits o)
        ((readU64_reads _).bind_true (Reads.pure tx)))) ?_
    · simp only [TxInput.encode, Hash256.asBytes, List.length_append, List.length_reverse,
        leBytes_length]
      omega
    · simp only [TxOutput.encode, List.length_append, leBytes_length]
      omega
    · constructor
      · rintro ⟨hil, hi, hol, ho, -⟩
        exact ⟨hv, hil, hi, hol, ho⟩
      · intro h
        exact ⟨h.inputsLength, h.inputs, h.outputsLength, h.outputs, trivial⟩
  · rw [if_pos hv]
    exact fun rest off _ => ⟨fun h => absurd h.version hv, fun _ => ⟨_, rfl⟩⟩

theorem header_reads (header : BlockHeader) :
    DecodesTo True BlockHeader.decodeFrom header header.encode := by
  have hbytes : header.encode = leBytes 2 header.version.toNat ++
      (Hash256.asBytes header.previousBlock ++ (Hash256.asBytes header.transactionRoot ++
        (leBytes 8 header.timestamp.toNat ++ (leBytes 32 header.difficultyCommitment.toNat ++
          (leBytes 8 header.nonce.toNat ++ []))))) := by
    simp only [BlockHeader.encode, List.append_assoc, List.append_nil]
  have hlen : (leBytes 32 header.difficultyCommitment.toNat).length = 32 := leBytes_length _ _
  have hdiff := readBytes_reads (leBytes 32 header.difficultyCommitment.toNat)
  refine (readU16_reads _).bind_true ((readHash_reads _).bind_true ((readHash_reads _).bind_true
    ((readU64_reads _).bind_true (hdiff.bind_true ((readU64_reads _).bind_true ?_)))))
  rw [readLE_leBytes_of_lt header.difficultyCommitment.isLt, BitVec.ofNat_toNat,
    BitVec.setWidth_eq]
  exact Reads.pure header

theorem Transaction.encode_length_pos (tx : Transaction) : 0 < tx.encode.length := by
  simp only [Transaction.encode, List.length_append, leBytes_length]
  omega

theorem blockBody_reads (b : Block) :
    DecodesTo (b.transactions.length ≤ limits.maxBlockTransactions.toNat ∧ b.transactions ≠ [] ∧
      ∀ tx ∈ b.transactions, tx.Within limits) (Block.decodeFrom limits) b b.encode := by
  rw [Block.encode, List.append_assoc, ← List.append_nil (b.transactions.flatMap _)]
  refine (header_reads _).bind_true ?_
  intro rest off hoff
  have hlt : b.transactions.length < 2 ^ 64 := by
    have := length_le_flatMap fun tx (_ : tx ∈ b.transactions) => tx.encode_length_pos
    grind
  refine (Reads.bind (readLen_reads _ hlt) fun _ => ?_) rest off hoff
  by_cases hne : b.transactions = []
  · rw [hne]
    exact fun rest off _ => ⟨fun h => absurd rfl h.1, fun _ => ⟨_, rfl⟩⟩
  · rw [if_neg (fun h => hne (List.length_eq_zero_iff.mp h))]
    exact ((Reads.times _ fun tx _ => transaction_reads limits tx).bind fun _ =>
      Reads.pure b).congr (by simp [hne])

theorem input_consumes : Consumes (TxInput.decodeFrom limits) TxInput.encode := by
  intro c i c' h
  simp only [TxInput.decodeFrom, reader_bind_ok, reader_pure_ok] at h
  obtain ⟨txid, c₁, htxid, index, c₂, hindex, sequence, c₃, hsequence, n, c₄, hn, witness, c₅,
    hwitness, rfl, rfl⟩ := h
  rw [readHash_consumes _ _ _ htxid, readU32_consumes _ _ _ hindex, readU32_consumes _ _ _ hsequence,
    readMany_consumes (readItem_consumes _) hn hwitness]
  simp only [TxInput.encode, List.append_assoc]

theorem readAmount_consumes : Consumes readAmount fun a => leBytes 8 a.baseUnits := by
  intro c a c' h
  simp only [readAmount, reader_bind_ok] at h
  obtain ⟨value, d, hvalue, h⟩ := h
  unfold Amount.fromBaseUnits at h
  split_ifs at h with hmax
  · obtain ⟨rfl, rfl⟩ := reader_pure_ok.mp h
    exact readU64_consumes _ _ _ hvalue
  · exact absurd h reader_throw_ok

theorem output_consumes : Consumes (TxOutput.decodeFrom limits) TxOutput.encode := by
  intro c o c' h
  simp only [TxOutput.decodeFrom, reader_bind_ok, reader_pure_ok] at h
  obtain ⟨value, c₁, hvalue, program, c₂, hprogram, rfl, rfl⟩ := h
  rw [readAmount_consumes _ _ _ hvalue, readItem_consumes _ _ _ _ hprogram, TxOutput.encode,
    List.append_assoc]

theorem transaction_consumes : Consumes (Transaction.decodeFrom limits) Transaction.encode := by
  intro c tx c' h
  simp only [Transaction.decodeFrom, reader_bind_ok] at h
  obtain ⟨version, c₁, hversion, h⟩ := h
  split_ifs at h with hne
  · exact absurd h reader_throw_ok
  · simp only [reader_bind_ok, reader_pure_ok] at h
    obtain ⟨n, c₂, hn, inputs, c₃, hinputs, k, c₄, hk, outputs, c₅, houtputs, lockTime, c₆, hlock,
      rfl, rfl⟩ := h
    rw [readU16_consumes _ _ _ hversion, readMany_consumes (input_consumes limits) hn hinputs,
      readMany_consumes (output_consumes limits) hk houtputs, readU64_consumes _ _ _ hlock]
    simp only [Transaction.encode, List.append_assoc]

theorem header_consumes : Consumes BlockHeader.decodeFrom BlockHeader.encode := by
  intro c header c' h
  simp only [BlockHeader.decodeFrom, reader_bind_ok, reader_pure_ok] at h
  obtain ⟨version, c₁, hversion, previous, c₂, hprevious, root, c₃, hroot, timestamp, c₄, htimestamp,
    difficulty, c₅, hdifficulty, nonce, c₆, hnonce, rfl, rfl⟩ := h
  obtain ⟨hlength, hrest⟩ := readBytes_consumes hdifficulty
  have hlt : readLE difficulty < 2 ^ 256 := by
    have := readLE_lt difficulty
    rwa [hlength] at this
  have hback := leBytes_readLE difficulty
  rw [hlength] at hback
  rw [readU16_consumes _ _ _ hversion, readHash_consumes _ _ _ hprevious,
    readHash_consumes _ _ _ hroot, readU64_consumes _ _ _ htimestamp, hrest,
    readU64_consumes _ _ _ hnonce]
  simp only [BlockHeader.encode, BitVec.toNat_ofNat, Nat.mod_eq_of_lt hlt, hback, List.append_assoc]

theorem block_consumes : Consumes (Block.decodeFrom limits) Block.encode := by
  intro c b c' h
  simp only [Block.decodeFrom, reader_bind_ok] at h
  obtain ⟨header, c₁, hheader, n, c₂, hn, h⟩ := h
  split_ifs at h with hzero
  · exact absurd h reader_throw_ok
  · simp only [reader_bind_ok, reader_pure_ok] at h
    obtain ⟨transactions, c₃, htransactions, rfl, rfl⟩ := h
    rw [header_consumes _ _ _ hheader, readMany_consumes (transaction_consumes limits) hn htransactions]
    simp only [Block.encode, List.append_assoc]

variable {limits}

theorem Block.decode_encode {b : Block} (h : b.Within limits) :
    Block.decode b.encode limits = .ok b := by
  have hmax := limits.maxObjectBytes.toNat_lt
  have hsize := h.size
  have hread := (blockBody_reads limits b [] 0 (by omega)).1 ⟨h.count, h.nonempty, h.transactions⟩
  rw [List.append_nil] at hread
  simp [Block.decode, decodeAll, ensure, hsize, hread, ok_bind, pure, Except.pure]

/-- What is decoded from a block's encoding is that block, and it was within the limits. -/
theorem Block.decode_encode_eq {b b' : Block} (h : Block.decode b.encode limits = .ok b') :
    b' = b ∧ b.Within limits := by
  have hmax := limits.maxObjectBytes.toNat_lt
  simp only [Block.decode, decodeAll, bind_eq_ok, ensure_eq_ok, exists_and_left, exists_const,
    pure_eq_ok] at h
  obtain ⟨hsize, r, hr, -, rfl⟩ := h
  obtain ⟨hok, herr⟩ := blockBody_reads limits b [] 0 (by omega)
  rw [List.append_nil] at hok herr
  by_cases hP : b.transactions.length ≤ limits.maxBlockTransactions.toNat ∧ b.transactions ≠ [] ∧
      ∀ tx ∈ b.transactions, tx.Within limits
  · have hread := hok hP
    rw [hr] at hread
    exact ⟨(Prod.mk.inj (Except.ok.inj hread)).1, hsize, hP.1, hP.2.1, hP.2.2⟩
  · simp_all

end Limits

/-- A decoder that reads to the end has read the encoding of what it returns. -/
theorem decodeAll_reencode {α : Type} {p : Decoder α} {enc : α → Bytes} (hp : Consumes p enc)
    {bytes : Bytes} {x : α} (h : decodeAll p bytes = .ok x) : enc x = bytes := by
  simp only [decodeAll, bind_eq_ok, ensure_eq_ok, exists_and_left, exists_const, pure_eq_ok] at h
  obtain ⟨⟨y, c⟩, hrun, hrest, rfl⟩ := h
  have hconsumed := hp _ _ _ hrun
  simp_all

theorem decodeAll_encode {α : Type} {P : Prop} {p : Decoder α} {x : α} {bytes : Bytes}
    (hp : DecodesTo P p x bytes) (hP : P) (hlength : bytes.length < 2 ^ 64) :
    decodeAll p bytes = .ok x := by
  have hread := (hp [] 0 (by omega)).1 hP
  rw [List.append_nil] at hread
  simp [decodeAll, hread, ensure, ok_bind, pure, Except.pure]

theorem BlockHeader.encode_length (h : BlockHeader) : h.encode.length = 114 := by
  simp [BlockHeader.encode, Hash256.asBytes]

theorem Transaction.encode_of_decode {bytes : Bytes} {limits : DecodeLimits} {tx : Transaction}
    (h : Transaction.decode bytes limits = .ok tx) : tx.encode = bytes := by
  simp only [Transaction.decode, bind_eq_ok, ensure_eq_ok, exists_and_left, exists_const] at h
  exact decodeAll_reencode (transaction_consumes limits) h.2

theorem Block.encode_of_decode {bytes : Bytes} {limits : DecodeLimits} {b : Block}
    (h : Block.decode bytes limits = .ok b) : b.encode = bytes := by
  simp only [Block.decode, bind_eq_ok, ensure_eq_ok, exists_and_left, exists_const] at h
  exact decodeAll_reencode (block_consumes limits) h.2

end Oregon
