import Oregon.Sanity.Codec
import Oregon.Spec.Protocol

/-! The parts of the wire protocol one by one: each payload is read back as it was written
and nothing else is accepted, and reading a buffer takes the next bytes of the stream in
whatever segments they arrive. -/

namespace Oregon.Protocol

open Lib

/-- No payload passes the range of `usize`. -/
abbrev ReadsTo {α : Type} (P : Prop) (p : PayloadReader α) (x : α) (bs : Bytes) : Prop :=
  Reads (2 ^ 64) P p x bs

theorem primitive_reads {α : Type} {P : Prop} {p : Decoder α} {x : α} {bs : Bytes}
    (h : DecodesTo P p x bs) : ReadsTo P (primitive p) x bs := h.mapError _

theorem primitive_consumes {α : Type} {p : Decoder α} {enc : α → Bytes} (h : Consumes p enc) :
    Consumes (primitive p) enc := h.mapError _

theorem decodePayload_encode {α : Type} {P : Prop} {p : PayloadReader α} {x : α} {payload : Bytes}
    (hp : ReadsTo P p x payload) (hP : P) (hlength : payload.length < 2 ^ 64) :
    decodePayload p payload = .ok x := by
  have hread := (hp [] 0 (by omega)).1 hP
  rw [List.append_nil] at hread
  rw [decodePayload, hread, ok_bind, ensure_ok rfl, ok_bind]
  rfl

theorem decodePayload_reencode {α : Type} {p : PayloadReader α} {enc : α → Bytes}
    (hp : Consumes p enc) {payload : Bytes} {x : α} (h : decodePayload p payload = .ok x) :
    enc x = payload := by
  simp only [decodePayload, bind_eq_ok, ensure_eq_ok, exists_and_left, exists_const,
    pure_eq_ok] at h
  obtain ⟨⟨y, c⟩, hrun, hrest, rfl⟩ := h
  have hconsumed := hp _ _ _ hrun
  simp_all

section Fields

theorem readNonce_reads (nonce : BitVec 128) :
    DecodesTo True readNonce nonce (leBytes 16 nonce.toNat) := by
  have h := readLE_reads 16 nonce.toNat (BitVec.ofNat 128) nonce.isLt
  rwa [BitVec.ofNat_toNat, BitVec.setWidth_eq] at h

theorem readNonce_consumes : Consumes readNonce fun nonce => leBytes 16 nonce.toNat :=
  readLE_consumes fun v h => by
    have hlt : v < 2 ^ 128 := by omega
    rw [BitVec.toNat_ofNat, Nat.mod_eq_of_lt hlt]

theorem Hello.read_reads (hello : Hello) : DecodesTo True Hello.read hello hello.encode := by
  exact (readU16_reads _).bind_true <| (readU16_reads _).bind_true <|
    (readHash_reads _).bind_true <| (readNonce_reads _).bind_true <|
    (readU64_reads _).bind_true <| (readU64_reads _).bind_true <|
    (readU64_reads _).bind_true <| (readHash_reads _).bind_last <| Reads.pure hello

theorem Hello.read_consumes : Consumes Hello.read Hello.encode := by
  intro c hello c' h
  simp only [Hello.read, reader_bind_ok, reader_pure_ok] at h
  obtain ⟨low, c₁, hlow, high, c₂, hhigh, chain, c₃, hchain, nonce, c₄, hnonce, offered, c₅,
    hoffered, required, c₆, hrequired, height, c₇, hheight, best, c₈, hbest, rfl, rfl⟩ := h
  rw [readU16_consumes _ _ _ hlow, readU16_consumes _ _ _ hhigh, readHash_consumes _ _ _ hchain,
    readNonce_consumes _ _ _ hnonce, readU64_consumes _ _ _ hoffered,
    readU64_consumes _ _ _ hrequired, readU64_consumes _ _ _ hheight,
    readHash_consumes _ _ _ hbest]
  simp only [Hello.encode, List.append_assoc]

theorem Hello.encode_length (hello : Hello) : hello.encode.length = 108 := by
  simp [Hello.encode, Hash256.asBytes]

theorem HelloAck.read_reads (ack : HelloAck) : DecodesTo True HelloAck.read ack ack.encode := by
  exact (readU16_reads _).bind_true <| (readU64_reads _).bind_true <|
    (readNonce_reads _).bind_last <| Reads.pure ack

theorem HelloAck.read_consumes : Consumes HelloAck.read HelloAck.encode := by
  intro c ack c' h
  simp only [HelloAck.read, reader_bind_ok, reader_pure_ok] at h
  obtain ⟨version, c₁, hversion, features, c₂, hfeatures, nonce, c₃, hnonce, rfl, rfl⟩ := h
  rw [readU16_consumes _ _ _ hversion, readU64_consumes _ _ _ hfeatures,
    readNonce_consumes _ _ _ hnonce]
  simp only [HelloAck.encode, List.append_assoc]

theorem HelloAck.encode_length (ack : HelloAck) : ack.encode.length = 26 := by
  simp [HelloAck.encode]

theorem InventoryKind.decode_tag (kind : InventoryKind) :
    InventoryKind.decode kind.tag = .ok kind := by
  cases kind <;> decide

theorem InventoryKind.tag_of_decode {value : UInt8} {kind : InventoryKind}
    (h : InventoryKind.decode value = .ok kind) : kind.tag = value := by
  grind [InventoryKind.decode, InventoryKind.tag]

theorem InventoryItem.read_reads (item : InventoryItem) :
    ReadsTo True InventoryItem.read item item.encode :=
  (primitive_reads (readByte_reads _)).bind_true <|
    (checked_reads item.kind.decode_tag).bind_true <|
    (primitive_reads (readHash_reads _)).bind_last <| Reads.pure item

theorem InventoryItem.read_consumes : Consumes InventoryItem.read InventoryItem.encode := by
  intro c item c' h
  simp only [InventoryItem.read, reader_bind_ok, reader_pure_ok, checked_ok] at h
  obtain ⟨byte, c₁, hbyte, kind, _, ⟨hkind, rfl⟩, hash, c₂, hhash, rfl, rfl⟩ := h
  rw [primitive_consumes readByte_consumes _ _ _ hbyte,
    primitive_consumes readHash_consumes _ _ _ hhash, ← InventoryKind.tag_of_decode hkind]
  rfl

theorem InventoryItem.encode_length (item : InventoryItem) : item.encode.length = 33 := by
  simp [InventoryItem.encode, Hash256.asBytes]

theorem readHeader_reads (header : BlockHeader) :
    ReadsTo True readHeader header header.encode := by
  have hbytes := primitive_reads (readBytes_reads header.encode)
  have hlength := header.encode_length
  have hdecode : BlockHeader.decode header.encode = .ok header :=
    decodeAll_encode (header_reads header) trivial (by omega)
  refine hbytes.bind_last (checked_reads ?_)
  rw [hdecode, mapError_ok]

theorem readHeader_consumes : Consumes readHeader BlockHeader.encode := by
  intro c header c' h
  simp only [readHeader, reader_bind_ok, checked_ok, mapError_eq_ok] at h
  obtain ⟨bytes, d, hbytes, hheader, rfl⟩ := h
  rw [primitive, Reader.mapError, mapError_eq_ok] at hbytes
  rw [decodeAll_reencode header_consumes hheader]
  exact (readBytes_consumes hbytes).2

end Fields

section Lists

variable {α : Type} {p : PayloadReader α} {enc : α → Bytes} {max : UInt64} {xs : List α}

theorem encodeList_ok {bytes : Bytes} : encodeList enc max xs = .ok bytes ↔
    xs.length ≤ max.toNat ∧ writeVarint xs.length ++ xs.flatMap enc = bytes := by
  simp only [encodeList, enforceListLimit, bind_eq_ok, ensure_eq_ok, exists_and_left, exists_const,
    pure_eq_ok]

theorem readList_reads (hp : ∀ x, ReadsTo True p x (enc x)) (h : xs.length ≤ max.toNat) :
    ReadsTo True (readList p max) xs (writeVarint xs.length ++ xs.flatMap enc) := by
  have hlen := (primitive_reads (readLen_reads max (lt_of_le_of_lt h max.toNat_lt))).congr
    (iff_of_true h trivial)
  have hlist := (Reads.times xs fun x _ => hp x).congr (iff_of_true (fun _ _ => trivial) trivial)
  exact hlen.bind_true hlist

theorem readList_consumes (hp : Consumes p enc) {c c' : Cursor}
    (h : readList p max c = .ok (xs, c')) : ∃ bytes, encodeList enc max xs = .ok bytes ∧
      c.rest = bytes ++ c'.rest := by
  simp only [readList, reader_bind_ok] at h
  obtain ⟨n, d, hn, hxs⟩ := h
  obtain ⟨rfl, hrest⟩ := hp.times n _ _ _ hxs
  rw [primitive, Reader.mapError, mapError_eq_ok] at hn
  refine ⟨_, encodeList_ok.mpr ⟨readLen_le hn, rfl⟩, ?_⟩
  rw [readLen_consumes max _ _ _ hn, hrest, List.append_assoc]

/-- A payload that is one list. -/
theorem decodePayload_readList_ok (hp : Consumes p enc) {payload : Bytes}
    (h : decodePayload (readList p max) payload = .ok xs) : encodeList enc max xs = .ok payload := by
  simp only [decodePayload, bind_eq_ok, ensure_eq_ok, exists_and_left, exists_const,
    pure_eq_ok] at h
  obtain ⟨⟨y, c⟩, hrun, hrest, rfl⟩ := h
  obtain ⟨bytes, hbytes, hconsumed⟩ := readList_consumes hp hrun
  simp_all

theorem encodeList_length_le {size : ℕ} (hsize : ∀ x, (enc x).length = size) {bytes : Bytes}
    (h : encodeList enc max xs = .ok bytes) : bytes.length ≤ 9 + max.toNat * size := by
  obtain ⟨hmax, rfl⟩ := encodeList_ok.mp h
  have hcount := writeVarint_length_le xs.length
  have hitems : (xs.flatMap enc).length ≤ xs.length * size :=
    length_flatMap_le fun x _ => (hsize x).le
  have hscale := Nat.mul_le_mul_right size hmax
  rw [List.length_append]
  omega

end Lists

section GetHeaders

theorem readStop_reads (stop : Option Hash256) :
    ReadsTo True (optional (primitive readByte) .invalidStopFlag (primitive readHash)) stop
      (encodeOption Hash256.asBytes stop) :=
  (optional_reads (fun b => primitive_reads (readByte_reads b))
    (fun x => primitive_reads (readHash_reads x)) stop).congr
    (iff_of_true (fun _ _ => trivial) trivial)

theorem encodeGetHeaders_ok {request : GetHeaders} {bytes : Bytes} :
    encodeGetHeaders request = .ok bytes ↔
      ∃ locator, encodeList Hash256.asBytes MAX_LOCATOR_HASHES request.locator = .ok locator ∧
        locator ++ encodeOption Hash256.asBytes request.stop = bytes := by
  simp only [encodeGetHeaders, bind_eq_ok, pure_eq_ok]

theorem GetHeaders.read_reads {request : GetHeaders} {bytes : Bytes}
    (h : encodeGetHeaders request = .ok bytes) : ReadsTo True GetHeaders.read request bytes := by
  obtain ⟨_, hlocator, rfl⟩ := encodeGetHeaders_ok.mp h
  obtain ⟨hmax, rfl⟩ := encodeList_ok.mp hlocator
  exact (readList_reads (fun x => primitive_reads (readHash_reads x)) hmax).bind_true <|
    (readStop_reads _).bind_last <| Reads.pure request

theorem decodeGetHeaders_ok {request : GetHeaders} {payload : Bytes}
    (h : decodeGetHeaders payload = .ok request) : encodeGetHeaders request = .ok payload := by
  simp only [decodeGetHeaders, decodePayload, bind_eq_ok, ensure_eq_ok, exists_and_left,
    exists_const, pure_eq_ok] at h
  obtain ⟨⟨y, c⟩, hrun, hrest, rfl⟩ := h
  simp only [GetHeaders.read, reader_bind_ok, reader_pure_ok] at hrun
  obtain ⟨locator, d, hlocator, stop, d', hstop, rfl, rfl⟩ := hrun
  obtain ⟨bytes, hbytes, hconsumed⟩ :=
    readList_consumes (primitive_consumes readHash_consumes) hlocator
  have hflag := (primitive_consumes readByte_consumes).optional
    (primitive_consumes readHash_consumes) _ _ _ hstop
  dsimp only at hrest hconsumed
  rw [hflag, hrest, List.append_nil] at hconsumed
  rw [hconsumed]
  exact encodeGetHeaders_ok.mpr ⟨bytes, hbytes, rfl⟩

theorem encodeGetHeaders_length_le {request : GetHeaders} {bytes : Bytes}
    (h : encodeGetHeaders request = .ok bytes) : bytes.length ≤ 2090 := by
  obtain ⟨locator, hlocator, rfl⟩ := encodeGetHeaders_ok.mp h
  have hhash (x : Hash256) : (Hash256.asBytes x).length = 32 := by simp [Hash256.asBytes]
  have hlength := encodeList_length_le hhash hlocator
  have hmax : MAX_LOCATOR_HASHES.toNat = 64 := by decide
  have hstop : (encodeOption Hash256.asBytes request.stop).length ≤ 33 := by
    cases request.stop with
    | none => simp [encodeOption]
    | some stop => simp [encodeOption, Hash256.asBytes]
  rw [List.length_append]
  omega

end GetHeaders

section Frames

theorem FrameHeader.read_reads (header : FrameHeader) :
    DecodesTo True FrameHeader.read header header.encode := by
  exact (readU32_reads _).bind_true <| (readByte_reads _).bind_true <|
    (readByte_reads _).bind_true <| (readU16_reads _).bind_true <|
    (readU32_reads _).bind_true <| (readU32_reads _).bind_last <| Reads.pure header

theorem FrameHeader.read_consumes : Consumes FrameHeader.read FrameHeader.encode := by
  intro c header c' h
  simp only [FrameHeader.read, reader_bind_ok, reader_pure_ok] at h
  obtain ⟨magic, c₁, hmagic, version, c₂, hversion, type, c₃, htype, flags, c₄, hflags, length, c₅,
    hlength, checksum, c₆, hchecksum, rfl, rfl⟩ := h
  rw [readU32_consumes _ _ _ hmagic, readByte_consumes _ _ _ hversion,
    readByte_consumes _ _ _ htype, readU16_consumes _ _ _ hflags, readU32_consumes _ _ _ hlength,
    readU32_consumes _ _ _ hchecksum]
  simp only [FrameHeader.encode, List.append_assoc]

theorem FrameHeader.encode_length (header : FrameHeader) :
    header.encode.length = FRAME_HEADER_BYTES := by
  simp [FrameHeader.encode, FRAME_HEADER_BYTES]

/-- A header with the fields of this version, for a known type and within its limit. -/
structure FrameHeader.Valid (header : FrameHeader) : Prop where
  frameVersion : header.frameVersion = FRAME_VERSION
  messageType : isKnownMessageType header.messageType = true
  flags : header.flags = 0
  payloadLength : header.payloadLength.toNat ≤ payloadLimit header.messageType

theorem validateHeaderFields_ok {header : FrameHeader} :
    validateHeaderFields header.frameVersion header.messageType header.flags
      header.payloadLength = .ok () ↔ header.Valid := by
  simp only [validateHeaderFields, validatePayloadSize, bind_eq_ok, ensure_eq_ok, exists_and_left,
    exists_const]
  constructor
  · rintro ⟨hversion, htype, hflags, -, hlength⟩
    exact ⟨hversion, htype, hflags, hlength⟩
  · intro h
    exact ⟨h.frameVersion, h.messageType, h.flags, h.messageType, h.payloadLength⟩

theorem FrameHeader.decode_ok {bytes : Bytes} {header : FrameHeader} :
    FrameHeader.decode bytes = .ok header ↔ header.encode = bytes ∧ header.Valid := by
  simp only [FrameHeader.decode, bind_eq_ok, pure_eq_ok, exists_unit, validateHeaderFields_ok]
  constructor
  · rintro ⟨header, hread, hvalid, rfl⟩
    exact ⟨decodePayload_reencode (primitive_consumes FrameHeader.read_consumes) hread, hvalid⟩
  · rintro ⟨rfl, hvalid⟩
    have hlength := header.encode_length
    have hsize : FRAME_HEADER_BYTES = 16 := rfl
    exact ⟨header, decodePayload_encode (primitive_reads header.read_reads) trivial (by omega),
      hvalid, rfl⟩

variable [Crypto]

theorem buildFrameHeader_ok (magic : UInt32) {messageType : UInt8} {payload : Bytes}
    (htype : isKnownMessageType messageType = true)
    (hlength : payload.length ≤ payloadLimit messageType) :
    ∃ header, buildFrameHeader magic messageType payload = .ok header ∧ header.Valid ∧
      header.networkMagic = magic ∧ header.messageType = messageType ∧
      header.payloadLength.toNat = payload.length ∧
      header.checksum = frameChecksum magic messageType header.payloadLength payload := by
  have hlimit : payloadLimit messageType ≤ 2097152 := by
    unfold payloadLimit
    split_ifs <;> decide
  have hsmall : payload.length < 2 ^ 32 := by omega
  have hnat : (UInt32.ofNat payload.length).toNat = payload.length :=
    UInt32.toNat_ofNat_of_lt' hsmall
  let header : FrameHeader := ⟨magic, FRAME_VERSION, messageType, 0, UInt32.ofNat payload.length,
    frameChecksum magic messageType (UInt32.ofNat payload.length) payload⟩
  have hvalid : header.Valid := ⟨rfl, htype, rfl, hnat.trans_le hlength⟩
  refine ⟨header, ?_, hvalid, rfl, rfl, hnat, rfl⟩
  have hfields := validateHeaderFields_ok.mpr hvalid
  dsimp only [header] at hfields
  simp only [buildFrameHeader, validatePayloadSize, ensure_ok htype, ensure_ok hlength, ok_bind,
    ensure_ok hsmall, hfields]
  rfl

theorem verifyFramePayload_ok {header : FrameHeader} {magic : UInt32} {payload : Bytes} {u : Unit} :
    verifyFramePayload header magic payload = .ok u ↔ header.Valid ∧
      header.networkMagic = magic ∧ header.payloadLength.toNat = payload.length ∧
      header.checksum =
        frameChecksum header.networkMagic header.messageType header.payloadLength payload := by
  simp only [verifyFramePayload, bind_eq_ok, ensure_eq_ok, exists_unit, exists_and_left,
    exists_const, validateHeaderFields_ok]

end Frames

section Stream

/-- The bytes that arrive before the stream ends, fails or a timer fires. -/
def Stream.available : Stream → Bytes
  | .segment bytes :: stream => if bytes = [] then [] else bytes ++ available stream
  | _ => []

theorem available_segment {bytes : Bytes} (h : bytes ≠ []) (stream : Stream) :
    Stream.available (.segment bytes :: stream) = bytes ++ Stream.available stream := by
  rw [Stream.available, if_neg h]

theorem readExactCounted_ok {expected : ℕ} {stream stream' : Stream} {buffer bytes : Bytes}
    (hbuffer : buffer.length ≤ expected)
    (h : readExactCounted expected buffer stream = .ok (bytes, stream')) :
    bytes.length = expected ∧ buffer ++ stream.available = bytes ++ stream'.available := by
  induction stream generalizing buffer with
  | nil =>
    unfold readExactCounted at h
    grind
  | cons arrival stream ih =>
    unfold readExactCounted at h
    split_ifs at h with hfull
    · cases h
      exact ⟨by omega, rfl⟩
    · cases arrival with
      | segment segment =>
        dsimp only at h
        split_ifs at h with hempty hfits
        · grind [available_segment]
        · cases h
          have hrest : segment.drop (expected - buffer.length) ≠ [] := by
            rw [Ne, List.drop_eq_nil_iff]
            omega
          refine ⟨?_, ?_⟩
          · grind
          · grind [available_segment, List.take_append_drop]
      | _ => cases h

theorem readExactCounted_of_available {expected : ℕ} {stream : Stream} {buffer : Bytes}
    (hbuffer : buffer.length ≤ expected)
    (h : expected ≤ buffer.length + stream.available.length) :
    ∃ bytes stream', readExactCounted expected buffer stream = .ok (bytes, stream') := by
  induction stream generalizing buffer with
  | nil =>
    refine ⟨buffer, [], ?_⟩
    rw [readExactCounted, if_pos (by simpa [Stream.available] using h)]
  | cons arrival stream ih =>
    by_cases hfull : expected ≤ buffer.length
    · exact ⟨buffer, arrival :: stream, by rw [readExactCounted.eq_def]; exact if_pos hfull⟩
    · cases arrival with
      | segment segment =>
        have hempty : segment ≠ [] := by
          rintro rfl
          simp only [Stream.available, if_true, List.length_nil] at h
          omega
        rw [available_segment hempty, List.length_append] at h
        rw [readExactCounted, if_neg hfull, if_neg hempty]
        split_ifs with hfits
        · exact ih (by rw [List.length_append]; omega) (by rw [List.length_append]; omega)
        · exact ⟨_, _, rfl⟩
      | _ =>
        simp only [Stream.available, List.length_nil] at h
        omega

/-- The next bytes of the stream fill the buffer. -/
theorem readExactCounted_append {stream : Stream} {bytes rest : Bytes}
    (h : stream.available = bytes ++ rest) : ∃ stream',
      readExactCounted bytes.length [] stream = .ok (bytes, stream') ∧
        stream'.available = rest := by
  have henough : bytes.length ≤ ([] : Bytes).length + stream.available.length := by
    rw [h]
    simp
  obtain ⟨taken, stream', hread⟩ := readExactCounted_of_available (Nat.zero_le _) henough
  obtain ⟨hlength, hbytes⟩ := readExactCounted_ok (Nat.zero_le _) hread
  rw [List.nil_append, h] at hbytes
  obtain ⟨rfl, hrest⟩ := List.append_inj hbytes hlength.symm
  exact ⟨stream', hread, hrest.symm⟩

end Stream

end Oregon.Protocol
