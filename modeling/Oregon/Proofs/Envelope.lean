import Oregon.Sanity.Envelope

/-! Execution envelopes have one encoding, and what is signed is everything but the proofs.
The signed string is never parsed; that it determines its fields is shown by peeling off
one field after the other. -/

namespace Oregon.Execution

open Lib

theorem encodeItem_length_le (item : Bytes) : (encodeItem item).length ≤ item.length + 9 := by
  have := writeVarint_length_le item.length
  rw [encodeItem, List.length_append]
  omega

namespace ExecutionEnvelopeV1Parts

variable {parts parts' : ExecutionEnvelopeV1Parts}

/-- The bounds that the decoder puts on the lengths. -/
structure Fits (parts : ExecutionEnvelopeV1Parts) : Prop where
  count : parts.authorizations.length ≤ MAX_AUTH_PROOFS.toNat
  payload : parts.domainPayload.length ≤ MAX_DOMAIN_PAYLOAD_BYTES.toNat
  hints : ∀ hints ∈ parts.accessHints, hints.length ≤ MAX_ACCESS_HINT_BYTES.toNat

/-- What `new` accepts is within the bounds of the decoder. -/
theorem fits_of_validate (h : parts.validate = .ok ()) : parts.Fits := by
  simp only [validate, validateAuthorizations, bind_eq_ok, ensure_eq_ok, exists_and_left,
    exists_const] at h
  obtain ⟨-, -, hpayload, _, hhints, ⟨-, hcount⟩, -⟩ := h
  refine ⟨hcount, hpayload, fun hints hmem => ?_⟩
  rw [Option.mem_def.mp hmem] at hhints
  simp only [validateAccessHints, bind_eq_ok, ensure_eq_ok, exists_and_left, exists_const] at hhints
  exact hhints.2

theorem decodeFrom_reads (h : parts.Fits) : ReadsTo True decodeFrom parts parts.encode := by
  have hbytes : parts.encode = leBytes 2 ENVELOPE_VERSION_V1.toNat ++
      (leBytes 8 parts.chainId.toNat ++ ([parts.executionDomain.toU8] ++
        (leBytes 8 parts.validAfterHeight.toNat ++ (leBytes 8 parts.validUntilHeight.toNat ++
          (parts.principal.toBytes ++ (encodeOption ExecutionAddress.toBytes parts.feePayer ++
            (parts.feeCaps.encode ++ (writeVarint parts.authorizations.length ++
              (parts.authorizations.flatMap AuthorizationProof.encode ++
                (encodeItem parts.domainPayload ++
                  encodeOption encodeItem parts.accessHints)))))))))) := by
    simp only [encode, encodeCommonPrefix, encodePayloadAndHints, List.append_assoc]
  have hcount : parts.authorizations.length < 2 ^ 64 :=
    lt_of_le_of_lt h.count MAX_AUTH_PROOFS.toNat_lt
  have hlen := (primitive_reads (readLen_reads MAX_AUTH_PROOFS hcount)).congr
    (iff_of_true h.count trivial)
  have hlist := (Reads.times parts.authorizations fun a _ => readAuthorization_reads a).congr
    (iff_of_true (fun _ _ => trivial) trivial)
  have hpayload := (primitive_reads (readItem_reads MAX_DOMAIN_PAYLOAD_BYTES
    parts.domainPayload)).congr (iff_of_true h.payload trivial)
  have hhints := (readOption_reads (fun hints => primitive_reads
    (readItem_reads MAX_ACCESS_HINT_BYTES hints)) parts.accessHints).congr
    (iff_of_true h.hints trivial)
  have hpayer := (readOption_reads readAddress_reads parts.feePayer).congr
    (iff_of_true (fun _ _ => trivial) trivial)
  rw [hbytes]
  exact (primitive_reads (readU16_reads _)).bind_true <| (primitive_reads (readU64_reads _)).bind_true <|
    (primitive_reads (readByte_reads _)).bind_true <|
    (checked_reads parts.executionDomain.tryFrom_toU8).bind_true <|
    (primitive_reads (readU64_reads _)).bind_true <| (primitive_reads (readU64_reads _)).bind_true <|
    (readAddress_reads _).bind_true <| hpayer.bind_true <| (readFeeCaps_reads _).bind_true <|
    hlen.bind_true <| hlist.bind_true <| hpayload.bind_true <| hhints.bind_last <| Reads.pure parts

theorem decodeFrom_consumes : Consumes decodeFrom encode := by
  intro c parts c' h
  simp only [decodeFrom, reader_bind_ok] at h
  obtain ⟨version, c₁, hversion, h⟩ := h
  split_ifs at h with hne
  · exact absurd h reader_throw_ok
  · simp only [reader_bind_ok, reader_pure_ok, checked_ok] at h
    obtain ⟨chainId, c₂, hchain, byte, c₃, hbyte, domain, _, ⟨hdomain, rfl⟩, after, c₄, hafter,
      till, c₅, htill, principal, c₆, hprincipal, payer, c₇, hpayer, caps, c₈, hcaps, n, c₉, hn,
      authorizations, c₁₀, hauthorizations, payload, c₁₁, hpayload, hints, c₁₂, hhints, rfl, rfl⟩ := h
    obtain ⟨hlength, hlist⟩ := readAuthorization_consumes.times n _ _ _ hauthorizations
    rw [primitive_consumes readU16_consumes _ _ _ hversion, not_not.mp hne,
      primitive_consumes readU64_consumes _ _ _ hchain,
      primitive_consumes readByte_consumes _ _ _ hbyte,
      ← ExecutionDomain.tryFrom_ok hdomain, primitive_consumes readU64_consumes _ _ _ hafter,
      primitive_consumes readU64_consumes _ _ _ htill, readAddress_consumes _ _ _ hprincipal,
      readOption_consumes readAddress_consumes _ _ _ hpayer, readFeeCaps_consumes _ _ _ hcaps,
      primitive_consumes (readLen_consumes _) _ _ _ hn, hlist,
      primitive_consumes (readItem_consumes _) _ _ _ hpayload,
      readOption_consumes (primitive_consumes (readItem_consumes _)) _ _ _ hhints]
    simp only [encode, encodeCommonPrefix, encodePayloadAndHints, hlength, List.append_assoc]

theorem encodeCommonPrefix_length_le : parts.encodeCommonPrefix.length ≤ 126 := by
  have hpayer : (encodeOption ExecutionAddress.toBytes parts.feePayer).length ≤ 34 := by
    cases parts.feePayer with
    | none => simp [encodeOption]
    | some payer => simp [encodeOption, payer.toBytes_length]
  simp only [encodeCommonPrefix, FeeCaps.encode, List.length_append, leBytes_length,
    List.length_singleton, parts.principal.toBytes_length]
  omega

theorem Fits.tail_length_le (h : parts.Fits) : parts.encodePayloadAndHints.length ≤ 1310739 := by
  have hpayload := encodeItem_length_le parts.domainPayload
  have hmax := h.payload
  have hlimit : MAX_DOMAIN_PAYLOAD_BYTES.toNat = 1048576 := by decide
  have hhints : (encodeOption encodeItem parts.accessHints).length ≤ 262154 := by
    cases heq : parts.accessHints with
    | none => simp [encodeOption]
    | some hints =>
      have hlength := h.hints hints heq
      have hlimit : MAX_ACCESS_HINT_BYTES.toNat = 262144 := by decide
      have := encodeItem_length_le hints
      rw [encodeOption, List.length_cons]
      omega
  rw [encodePayloadAndHints, List.length_append]
  omega

theorem Fits.encode_length_le (h : parts.Fits) : parts.encode.length ≤ MAX_ENVELOPE_BYTES := by
  have hprefix := parts.encodeCommonPrefix_length_le
  have htail := h.tail_length_le
  have hvarint := writeVarint_length_le parts.authorizations.length
  have hone : ∀ a ∈ parts.authorizations, a.encode.length ≤ 4108 := by
    intro a _
    have hitem := encodeItem_length_le a.proof
    have hlimit : MAX_AUTH_PROOF_BYTES.toNat = 4096 := by decide
    have hproof := a.length_le
    simp only [AuthorizationProof.encode, AuthorizationProof.encodeTag, encodeTag, List.length_append,
      List.length_cons, leBytes_length]
    omega
  have hlist := length_flatMap_le hone
  have hcount := h.count
  have hlimit : MAX_AUTH_PROOFS.toNat = 2 := by decide
  have hmax : MAX_ENVELOPE_BYTES = 2097152 := rfl
  simp only [encode, List.length_append]
  omega

theorem Fits.signingBytes_length (h : parts.Fits) : parts.signingBytes.length < 2 ^ 64 := by
  have hprefix := parts.encodeCommonPrefix_length_le
  have htail := h.tail_length_le
  have hvarint := writeVarint_length_le parts.authorizations.length
  have hone : ∀ a ∈ parts.authorizations, a.encodeTag.length ≤ 3 := by
    simp [AuthorizationProof.encodeTag, encodeTag]
  have hlist := length_flatMap_le hone
  have hcount := h.count
  have hlimit : MAX_AUTH_PROOFS.toNat = 2 := by decide
  simp only [signingBytes, List.length_append]
  omega

/-- Two envelopes agree in every field but the proofs of their authorizations. -/
structure Agrees (parts parts' : ExecutionEnvelopeV1Parts) : Prop where
  chainId : parts.chainId = parts'.chainId
  executionDomain : parts.executionDomain = parts'.executionDomain
  validAfterHeight : parts.validAfterHeight = parts'.validAfterHeight
  validUntilHeight : parts.validUntilHeight = parts'.validUntilHeight
  principal : parts.principal = parts'.principal
  feePayer : parts.feePayer = parts'.feePayer
  feeCaps : parts.feeCaps = parts'.feeCaps
  authorizations : parts.authorizations.map (fun a => (a.scope, a.scheme)) =
    parts'.authorizations.map (fun a => (a.scope, a.scheme))
  domainPayload : parts.domainPayload = parts'.domainPayload
  accessHints : parts.accessHints = parts'.accessHints

/-- The tag of an authorization, as a reader would read it. -/
def readTag : EnvelopeReader (AuthorizationScope × AuthorizationScheme) := do
  let scope ← primitive readByte
  let scope ← checked (AuthorizationScope.tryFrom scope)
  let scheme ← primitive readU16
  let scheme ← checked (AuthorizationScheme.tryFrom scheme)
  pure (scope, scheme)

theorem readTag_reads (tag : AuthorizationScope × AuthorizationScheme) :
    ReadsTo True readTag tag (encodeTag tag) :=
  (primitive_reads (readByte_reads _)).bind_true <|
    (checked_reads (AuthorizationScope.tryFrom_toU8 tag.1)).bind_true <|
    (primitive_reads (readU16_reads _)).bind_last <|
    (checked_reads (AuthorizationScheme.tryFrom_toU16 tag.2)).bind_true (Reads.pure tag)

theorem signingBytes_eq (parts : ExecutionEnvelopeV1Parts) : parts.signingBytes =
    leBytes 2 ENVELOPE_VERSION_V1.toNat ++ (leBytes 8 parts.chainId.toNat ++
      ([parts.executionDomain.toU8] ++ (leBytes 8 parts.validAfterHeight.toNat ++
        (leBytes 8 parts.validUntilHeight.toNat ++ (parts.principal.toBytes ++
          (encodeOption ExecutionAddress.toBytes parts.feePayer ++ (parts.feeCaps.encode ++
            (writeVarint parts.authorizations.length ++
              ((parts.authorizations.map fun a => (a.scope, a.scheme)).flatMap encodeTag ++
                (encodeItem parts.domainPayload ++
                  (encodeOption encodeItem parts.accessHints ++ []))))))))))) := by
  simp only [signingBytes, encodeCommonPrefix, encodePayloadAndHints, List.append_assoc,
    List.append_nil, List.flatMap_map]
  rfl

theorem Agrees.signingBytes_eq (h : parts.Agrees parts') :
    parts.signingBytes = parts'.signingBytes := by
  have hcount : parts.authorizations.length = parts'.authorizations.length := by
    have := congrArg List.length h.authorizations
    simpa using this
  rw [ExecutionEnvelopeV1Parts.signingBytes_eq, ExecutionEnvelopeV1Parts.signingBytes_eq, h.chainId,
    h.executionDomain, h.validAfterHeight, h.validUntilHeight, h.principal, h.feePayer, h.feeCaps,
    hcount, h.authorizations, h.domainPayload, h.accessHints]

/-- The signed string is peeled off field by field. -/
theorem agrees_of_signingBytes (hfits : parts.Fits) (hfits' : parts'.Fits)
    (h : parts.signingBytes = parts'.signingBytes) : parts.Agrees parts' := by
  have hlength := hfits.signingBytes_length
  rw [signingBytes_eq] at hlength
  rw [signingBytes_eq, signingBytes_eq] at h
  have hread {n : ℕ} {max : UInt64} (hn : n ≤ max.toNat) :
      DecodesTo True (readLen max) n (writeVarint n) :=
    (readLen_reads max (lt_of_le_of_lt hn max.toNat_lt)).congr (iff_of_true hn trivial)
  have hitem {item : Bytes} {max : UInt64} (hn : item.length ≤ max.toNat) :
      DecodesTo True (readItem max) item (encodeItem item) :=
    (readItem_reads max item).congr (iff_of_true hn trivial)
  have hpayer (payer : Option ExecutionAddress) :=
    (readOption_reads readAddress_reads payer).congr (iff_of_true (fun _ _ => trivial) trivial)
  have hhints (x : Option Bytes) (hx : ∀ hints ∈ x, hints.length ≤ MAX_ACCESS_HINT_BYTES.toNat) :=
    (readOption_reads (fun hints => primitive_reads
      (readItem_reads MAX_ACCESS_HINT_BYTES hints)) x).congr (iff_of_true hx trivial)
  have htags (tags : List (AuthorizationScope × AuthorizationScheme)) :=
    (Reads.times tags fun tag _ => readTag_reads tag).congr
      (iff_of_true (fun _ _ => trivial) trivial)
  obtain ⟨-, h, hlength⟩ := (readU16_reads _).append_inj (readU16_reads _) hlength h
  obtain ⟨hchain, h, hlength⟩ := (readU64_reads _).append_inj (readU64_reads _) hlength h
  obtain ⟨hdomain, h, hlength⟩ := (readByte_reads _).append_inj (readByte_reads _) hlength h
  obtain ⟨hafter, h, hlength⟩ := (readU64_reads _).append_inj (readU64_reads _) hlength h
  obtain ⟨htill, h, hlength⟩ := (readU64_reads _).append_inj (readU64_reads _) hlength h
  obtain ⟨hprincipal, h, hlength⟩ :=
    (readAddress_reads _).append_inj (readAddress_reads _) hlength h
  obtain ⟨hpayers, h, hlength⟩ := (hpayer _).append_inj (hpayer _) hlength h
  obtain ⟨hcaps, h, hlength⟩ := (readFeeCaps_reads _).append_inj (readFeeCaps_reads _) hlength h
  obtain ⟨hcount, h, hlength⟩ := (hread hfits.count).append_inj (hread hfits'.count) hlength h
  have hcount' : (parts.authorizations.map fun a => (a.scope, a.scheme)).length =
      (parts'.authorizations.map fun a => (a.scope, a.scheme)).length := by
    rw [List.length_map, List.length_map, hcount]
  have htags' := htags (parts'.authorizations.map fun a => (a.scope, a.scheme))
  rw [← hcount'] at htags'
  obtain ⟨hauthorizations, h, hlength⟩ := (htags _).append_inj htags' hlength h
  obtain ⟨hpayload, h, hlength⟩ :=
    (hitem hfits.payload).append_inj (hitem hfits'.payload) hlength h
  obtain ⟨hhint, -, -⟩ := (hhints _ hfits.hints).append_inj (hhints _ hfits'.hints) hlength h
  have hdomains : parts.executionDomain = parts'.executionDomain := by
    have hfrom := parts.executionDomain.tryFrom_toU8
    rw [hdomain, parts'.executionDomain.tryFrom_toU8] at hfrom
    exact (Except.ok.inj hfrom).symm
  exact ⟨hchain, hdomains, hafter, htill, hprincipal, hpayers, hcaps, hauthorizations, hpayload,
    hhint⟩

end ExecutionEnvelopeV1Parts

theorem ExecutionEnvelopeV1.new_ok {parts : ExecutionEnvelopeV1Parts}
    {envelope : ExecutionEnvelopeV1} : ExecutionEnvelopeV1.new parts = .ok envelope ↔ envelope.parts = parts := by
  constructor
  · intro h
    unfold ExecutionEnvelopeV1.new at h
    grind
  · rintro rfl
    unfold ExecutionEnvelopeV1.new
    split
    · rfl
    · next e he => cases envelope.valid.symm.trans he

theorem ExecutionEnvelopeV1.encode_of_decode {bytes : Bytes} {envelope : ExecutionEnvelopeV1}
    (h : ExecutionEnvelopeV1.decode bytes = .ok envelope) : envelope.encode = bytes := by
  simp only [ExecutionEnvelopeV1.decode, bind_eq_ok, ensure_eq_ok, exists_and_left,
    exists_const] at h
  obtain ⟨-, ⟨parts, c⟩, hrun, hrest, hnew⟩ := h
  have hconsumed := ExecutionEnvelopeV1Parts.decodeFrom_consumes _ _ _ hrun
  dsimp only at hrest hconsumed hnew
  rw [ExecutionEnvelopeV1.encode, ExecutionEnvelopeV1.new_ok.mp hnew, hconsumed, hrest,
    List.append_nil]

theorem ExecutionEnvelopeV1.decode_encode (envelope : ExecutionEnvelopeV1) :
    ExecutionEnvelopeV1.decode envelope.encode = .ok envelope := by
  have hfits := ExecutionEnvelopeV1Parts.fits_of_validate envelope.valid
  have hsize := hfits.encode_length_le
  have hmax : MAX_ENVELOPE_BYTES = 2097152 := rfl
  have hread := (ExecutionEnvelopeV1Parts.decodeFrom_reads hfits [] 0 (by omega)).1 trivial
  rw [List.append_nil] at hread
  rw [ExecutionEnvelopeV1.decode, ExecutionEnvelopeV1.encode, ensure_ok hsize, ok_bind, hread,
    ok_bind, ensure_ok rfl, ok_bind, ExecutionEnvelopeV1.new_ok]

/-- One encoding for every envelope, within the limit; and what is signed determines, and is
determined by, every field but the proofs. -/
theorem envelope_encoding_canonical :
    (∀ bytes envelope, ExecutionEnvelopeV1.decode bytes = .ok envelope → envelope.encode = bytes) ∧
    (∀ parts envelope, ExecutionEnvelopeV1.new parts = .ok envelope →
      envelope.parts = parts ∧ envelope.encode.length ≤ MAX_ENVELOPE_BYTES ∧
      ExecutionEnvelopeV1.decode envelope.encode = .ok envelope) ∧
    ∀ envelope envelope' : ExecutionEnvelopeV1,
      envelope.signingBytes = envelope'.signingBytes ↔ envelope.parts.Agrees envelope'.parts := by
  refine ⟨fun bytes envelope h => ExecutionEnvelopeV1.encode_of_decode h, fun parts envelope h =>
    ⟨ExecutionEnvelopeV1.new_ok.mp h, ?_, envelope.decode_encode⟩, fun envelope envelope' => ?_⟩
  · exact (ExecutionEnvelopeV1Parts.fits_of_validate envelope.valid).encode_length_le
  · exact ⟨ExecutionEnvelopeV1Parts.agrees_of_signingBytes
      (ExecutionEnvelopeV1Parts.fits_of_validate envelope.valid)
      (ExecutionEnvelopeV1Parts.fits_of_validate envelope'.valid), fun h => h.signingBytes_eq⟩

/-- An envelope without a fee payer, with one authorization of the principal. -/
def Sample.parts (payload : Bytes) : ExecutionEnvelopeV1Parts where
  chainId := 7
  executionDomain := .wasm
  validAfterHeight := 1
  validUntilHeight := 9
  principal := ⟨.oregon, 5, by decide⟩
  feePayer := none
  feeCaps := ⟨3, 1, 100, by decide, by decide⟩
  authorizations := [⟨.principal, .oregonSchnorrV1, List.replicate 96 0, by decide⟩]
  domainPayload := payload
  accessHints := some [1, 2]

theorem envelope_encoding_canonical_sample :
    ∃ envelope envelope', ExecutionEnvelopeV1.new (Sample.parts [1]) = .ok envelope ∧
      ExecutionEnvelopeV1.new (Sample.parts [2]) = .ok envelope' ∧
      ExecutionEnvelopeV1.decode envelope.encode = .ok envelope ∧
      envelope.signingBytes ≠ envelope'.signingBytes := by
  have hvalid : (Sample.parts [1]).validate = .ok () := by decide
  have hvalid' : (Sample.parts [2]).validate = .ok () := by decide
  have hnew : ExecutionEnvelopeV1.new (Sample.parts [1]) = .ok ⟨Sample.parts [1], hvalid⟩ :=
    ExecutionEnvelopeV1.new_ok.mpr rfl
  refine ⟨_, ⟨Sample.parts [2], hvalid'⟩, hnew, ExecutionEnvelopeV1.new_ok.mpr rfl,
    (envelope_encoding_canonical.2.1 _ _ hnew).2.2, fun h => ?_⟩
  have hpayload : ([1] : Bytes) = [2] := ((envelope_encoding_canonical.2.2 _ _).mp h).domainPayload
  exact absurd hpayload (by decide)

end Oregon.Execution
