import Oregon.Sanity.Codec

/-! Transactions, headers and blocks have one encoding. What a decoder accepts is the
encoding of what it returns, and what is within the limits is read back; so neither two
byte strings nor two values within the limits ever meet. -/

namespace Oregon

open Lib

/-- One encoding for each value within the limits, and nothing else is accepted. -/
structure Canonical {α : Type} (encode : α → Bytes) (decode : Bytes → Except PrimitiveError α)
    (within : α → Prop) : Prop where
  reencode : ∀ bytes x, decode bytes = .ok x → encode x = bytes
  readBack : ∀ x, within x → decode (encode x) = .ok x
  oneString : ∀ bytes bytes' x, decode bytes = .ok x → decode bytes' = .ok x → bytes = bytes'
  oneValue : ∀ x y, within x → within y → encode x = encode y → x = y

theorem Canonical.of_inverse {α : Type} {encode : α → Bytes}
    {decode : Bytes → Except PrimitiveError α} {within : α → Prop}
    (hreencode : ∀ bytes x, decode bytes = .ok x → encode x = bytes)
    (hreadBack : ∀ x, within x → decode (encode x) = .ok x) : Canonical encode decode within := by
  refine ⟨hreencode, hreadBack, fun bytes bytes' x h h' => ?_, fun x y hx hy h => ?_⟩
  · rw [← hreencode bytes x h, hreencode bytes' x h']
  · grind

/-- The encodings of transactions, headers and blocks are canonical for all limits. -/
theorem encodings_canonical (limits : DecodeLimits) :
    Canonical Transaction.encode (Transaction.decode · limits) (fun tx =>
      tx.Within limits ∧ tx.encode.length ≤ limits.maxObjectBytes.toNat) ∧
    Canonical BlockHeader.encode BlockHeader.decode (fun _ => True) ∧
    Canonical Block.encode (Block.decode · limits) (Block.Within limits) := by
  have hmax := limits.maxObjectBytes.toNat_lt
  refine ⟨.of_inverse (fun bytes tx h => Transaction.encode_of_decode h) (fun tx h => ?_),
    .of_inverse (fun bytes header h => ?_) (fun header _ => ?_),
    .of_inverse (fun bytes b h => Block.encode_of_decode h) (fun b h => Block.decode_encode h)⟩
  · rw [Transaction.decode, ensure_ok h.2, ok_bind]
    exact decodeAll_encode (transaction_reads limits tx) h.1 (by omega)
  · exact decodeAll_reencode header_consumes h
  · have hlength := header.encode_length
    exact decodeAll_encode (header_reads header) trivial (by omega)

end Oregon
