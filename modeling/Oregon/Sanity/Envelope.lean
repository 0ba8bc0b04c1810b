import Oregon.Sanity.Codec
import Oregon.Spec.Envelope

/-! The fields of an execution envelope, one by one: each is read back as it was written,
and whatever is read has exactly the encoding that was consumed. -/

namespace Oregon.Execution

open Lib

/-- No input passes the range of `usize`. -/
abbrev ReadsTo {α : Type} (P : Prop) (p : EnvelopeReader α) (x : α) (bs : Bytes) : Prop :=
  Reads (2 ^ 64) P p x bs

theorem primitive_reads {α : Type} {P : Prop} {p : Decoder α} {x : α} {bs : Bytes}
    (h : DecodesTo P p x bs) : ReadsTo P (primitive p) x bs := h.mapError _

theorem primitive_consumes {α : Type} {p : Decoder α} {enc : α → Bytes} (h : Consumes p enc) :
    Consumes (primitive p) enc := h.mapError _

section Tags

theorem ExecutionDomain.tryFrom_toU8 (domain : ExecutionDomain) :
    ExecutionDomain.tryFrom domain.toU8 = .ok domain := by
  cases domain <;> decide

theorem ExecutionDomain.tryFrom_ok {value : UInt8} {domain : ExecutionDomain}
    (h : ExecutionDomain.tryFrom value = .ok domain) : domain.toU8 = value := by
  grind [ExecutionDomain.tryFrom, ExecutionDomain.toU8]

theorem AuthorizationScope.tryFrom_toU8 (scope : AuthorizationScope) :
    AuthorizationScope.tryFrom scope.toU8 = .ok scope := by
  cases scope <;> decide

theorem AuthorizationScope.tryFrom_ok {value : UInt8} {scope : AuthorizationScope}
    (h : AuthorizationScope.tryFrom value = .ok scope) : scope.toU8 = value := by
  grind [AuthorizationScope.tryFrom, AuthorizationScope.toU8]

theorem AuthorizationScheme.tryFrom_toU16 (scheme : AuthorizationScheme) :
    AuthorizationScheme.tryFrom scheme.toU16 = .ok scheme := by
  cases scheme <;> decide

theorem AuthorizationScheme.tryFrom_ok {value : UInt16} {scheme : AuthorizationScheme}
    (h : AuthorizationScheme.tryFrom value = .ok scheme) : scheme.toU16 = value := by
  grind [AuthorizationScheme.tryFrom, AuthorizationScheme.toU16]

theorem ExecutionAddressKind.tryFrom_toU8 (kind : ExecutionAddressKind) :
    ExecutionAddressKind.tryFrom kind.toU8 = .ok kind := by
  cases kind <;> decide

theorem ExecutionAddressKind.tryFrom_ok {value : UInt8} {kind : ExecutionAddressKind}
    (h : ExecutionAddressKind.tryFrom value = .ok kind) : kind.toU8 = value := by
  grind [ExecutionAddressKind.tryFrom, ExecutionAddressKind.toU8]

end Tags

section Address

theorem ExecutionAddress.toBytes_length (address : ExecutionAddress) :
    address.toBytes.length = 33 := by
  simp [ExecutionAddress.toBytes, Hash256.asBytes]

theorem ExecutionAddress.fromSlice_toBytes (address : ExecutionAddress) :
    ExecutionAddress.fromSlice address.toBytes = .ok address := by
  have hpayload : BitVec.ofNat 256 (readLE (Hash256.asBytes address.payload).reverse) =
      address.payload := by
    rw [Hash256.asBytes, List.reverse_reverse, readLE_leBytes_of_lt address.payload.isLt,
      BitVec.ofNat_toNat, BitVec.setWidth_eq]
  rw [ExecutionAddress.fromSlice, ensure_ok address.toBytes_length, ok_bind]
  simp only [ExecutionAddress.toBytes, List.headD_cons, List.drop_succ_cons, List.drop_zero,
    ExecutionAddressKind.tryFrom_toU8, ok_bind, hpayload]
  rw [ExecutionAddress.new, dif_neg address.padded]

theorem ExecutionAddress.toBytes_of_fromSlice {bytes : Bytes} {address : ExecutionAddress}
    (h : ExecutionAddress.fromSlice bytes = .ok address) : address.toBytes = bytes := by
  simp only [ExecutionAddress.fromSlice, bind_eq_ok, ensure_eq_ok, exists_and_left,
    exists_const] at h
  obtain ⟨hlength, kind, hkind, h⟩ := h
  unfold ExecutionAddress.new at h
  split_ifs at h with hpadded
  cases h
  obtain ⟨b, payload, rfl⟩ := List.exists_cons_of_length_pos (by omega : 0 < bytes.length)
  rw [List.length_cons, Nat.add_right_cancel_iff] at hlength
  have hread : readLE payload.reverse < 2 ^ 256 := by grind [readLE_lt, List.length_reverse]
  have hback := leBytes_readLE payload.reverse
  rw [List.length_reverse, hlength] at hback
  simp only [ExecutionAddress.toBytes, List.headD_cons, List.drop_succ_cons, List.drop_zero,
    ExecutionAddressKind.tryFrom_ok hkind, Hash256.asBytes, BitVec.toNat_ofNat,
    Nat.mod_eq_of_lt hread, hback, List.reverse_reverse]

theorem readAddress_reads (address : ExecutionAddress) :
    ReadsTo True readAddress address address.toBytes := by
  have hbytes := primitive_reads (readBytes_reads address.toBytes)
  refine hbytes.bind_last (checked_reads ?_)
  rw [address.fromSlice_toBytes, mapError_ok]

theorem readAddress_consumes : Consumes readAddress ExecutionAddress.toBytes := by
  intro c address c' h
  simp only [readAddress, reader_bind_ok, checked_ok, mapError_eq_ok] at h
  obtain ⟨bytes, d, hbytes, haddress, rfl⟩ := h
  rw [primitive, Reader.mapError, mapError_eq_ok] at hbytes
  rw [ExecutionAddress.toBytes_of_fromSlice haddress]
  exact (readBytes_consumes hbytes).2

end Address

section Fields

theorem readOption_reads {α : Type} {P : α → Prop} {p : EnvelopeReader α} {enc : α → Bytes}
    (hp : ∀ a, ReadsTo (P a) p a (enc a)) (x : Option α) :
    ReadsTo (∀ a ∈ x, P a) (readOption p) x (encodeOption enc x) :=
  optional_reads (fun b => primitive_reads (readByte_reads b)) hp x

theorem readOption_consumes {α : Type} {p : EnvelopeReader α} {enc : α → Bytes}
    (hp : Consumes p enc) : Consumes (readOption p) (encodeOption enc) :=
  (primitive_consumes readByte_consumes).optional hp

theorem FeeCaps.new_self (caps : FeeCaps) :
    FeeCaps.new caps.maxFeePerWeight caps.maxPriorityFeePerWeight caps.maxWeight = .ok caps := by
  rw [FeeCaps.new, dif_neg caps.weight_ne_zero, dif_pos caps.priority_le]

theorem FeeCaps.new_ok {maxFee priority maxWeight : UInt64} {caps : FeeCaps}
    (h : FeeCaps.new maxFee priority maxWeight = .ok caps) : caps.maxFeePerWeight = maxFee ∧
      caps.maxPriorityFeePerWeight = priority ∧ caps.maxWeight = maxWeight := by
  unfold FeeCaps.new at h
  grind

theorem readFeeCaps_reads (caps : FeeCaps) : ReadsTo True readFeeCaps caps caps.encode := by
  exact (primitive_reads (readU64_reads _)).bind_true ((primitive_reads (readU64_reads _)).bind_true
    ((primitive_reads (readU64_reads _)).bind_last (checked_reads caps.new_self)))

theorem readFeeCaps_consumes : Consumes readFeeCaps FeeCaps.encode := by
  intro c caps c' h
  simp only [readFeeCaps, reader_bind_ok, checked_ok] at h
  obtain ⟨maxFee, c₁, hfee, priority, c₂, hpriority, weight, c₃, hweight, hnew, rfl⟩ := h
  obtain ⟨rfl, rfl, rfl⟩ := FeeCaps.new_ok hnew
  rw [primitive_consumes readU64_consumes _ _ _ hfee,
    primitive_consumes readU64_consumes _ _ _ hpriority,
    primitive_consumes readU64_consumes _ _ _ hweight, FeeCaps.encode, List.append_assoc,
    List.append_assoc]

/-- The lengths that the schemes allow are within the limit on proofs. -/
theorem AuthorizationProof.length_le (authorization : AuthorizationProof) :
    authorization.proof.length ≤ MAX_AUTH_PROOF_BYTES.toNat := by
  obtain ⟨scope, scheme, proof, hvalid⟩ := authorization
  have hmax : MAX_AUTH_PROOF_BYTES.toNat = 4096 := by decide
  cases scheme with
  | oregonSchnorrV1 =>
    change proof.length = 96 at hvalid
    dsimp only
    omega
  | ethereumEcdsaV1 =>
    change proof.length = 65 at hvalid
    dsimp only
    omega
  | oregonThresholdV1 => exact hvalid.2

theorem readAuthorization_reads (authorization : AuthorizationProof) :
    ReadsTo True readAuthorization authorization authorization.encode := by
  have hnew : AuthorizationProof.new authorization.scope authorization.scheme authorization.proof =
      .ok authorization := by rw [AuthorizationProof.new, dif_pos authorization.length_valid]
  have hitem : ReadsTo True (primitive (readItem MAX_AUTH_PROOF_BYTES)) authorization.proof
      (encodeItem authorization.proof) :=
    (primitive_reads (readItem_reads _ _)).congr (iff_of_true authorization.length_le trivial)
  have hscope := AuthorizationScope.tryFrom_toU8 authorization.scope
  have hscheme := AuthorizationScheme.tryFrom_toU16 authorization.scheme
  exact (primitive_reads (readByte_reads _)).bind_true ((checked_reads hscope).bind_true
    ((primitive_reads (readU16_reads _)).bind_true ((checked_reads hscheme).bind_true
      (hitem.bind_last (checked_reads hnew)))))

theorem readAuthorization_consumes : Consumes readAuthorization AuthorizationProof.encode := by
  intro c authorization c' h
  simp only [readAuthorization, reader_bind_ok, checked_ok] at h
  obtain ⟨scopeByte, c₁, hbyte, scope, _, ⟨hscope, rfl⟩, schemeCode, c₂, hcode, scheme, _,
    ⟨hscheme, rfl⟩, proof, c₃, hproof, hnew, rfl⟩ := h
  unfold AuthorizationProof.new at hnew
  split_ifs at hnew
  cases hnew
  rw [primitive_consumes readByte_consumes _ _ _ hbyte, primitive_consumes readU16_consumes _ _ _ hcode,
    primitive_consumes (readItem_consumes _) _ _ _ hproof]
  simp only [AuthorizationProof.encode, AuthorizationProof.encodeTag, encodeTag,
    AuthorizationScope.tryFrom_ok hscope, AuthorizationScheme.tryFrom_ok hscheme,
    List.cons_append, List.nil_append, List.append_assoc]

end Fields

end Oregon.Execution
