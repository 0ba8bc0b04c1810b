import Oregon.Sanity.Protocol
import Oregon.Spec.Consensus

/-! The wire protocol is canonical and lossless. What the decoder accepts is what the encoder
writes, every message within the limits can be sent and arrives as it was, and a frame that
is not as it should be never becomes a message. -/

namespace Oregon.Protocol

open Lib

section Payloads

/-- A message that a node may have to send: its lists are within the limits, and its
transaction or block is one that the decoder produces and that fits a block. -/
def Message.Sendable : Message → Prop
  | .inv items => items.length ≤ MAX_INV_ITEMS.toNat
  | .getData items => items.length ≤ MAX_GETDATA_ITEMS.toNat
  | .getHeaders request => request.locator.length ≤ MAX_LOCATOR_HASHES.toNat
  | .headers list => list.length ≤ MAX_HEADERS_PER_MESSAGE.toNat
  | .transaction tx => (∃ bytes, Transaction.decode bytes .default = .ok tx) ∧
      tx.encode.length ≤ MAX_BLOCK_BYTES
  | .block b => (∃ bytes, Block.decode bytes .default = .ok b) ∧ b.encode.length ≤ MAX_BLOCK_BYTES
  | _ => True

/-- A decoder accepts only what the encoder writes. -/
theorem payload_of_decodeBody {messageType : UInt8} {payload : Bytes} {message : Message}
    (h : decodeBody messageType payload = .ok message) :
    message.payload = .ok (messageType, payload) := by
  rw [decodeBody] at h
  by_cases h1 : messageType = TAG_HELLO
  · rw [if_pos h1] at h
    obtain ⟨hello, hread, rfl⟩ := map_eq_ok.mp h
    rw [h1, Message.payload, decodePayload_reencode (primitive_consumes Hello.read_consumes) hread]
  rw [if_neg h1] at h
  by_cases h2 : messageType = TAG_HELLO_ACK
  · rw [if_pos h2] at h
    obtain ⟨ack, hread, rfl⟩ := map_eq_ok.mp h
    rw [h2, Message.payload, decodePayload_reencode (primitive_consumes HelloAck.read_consumes) hread]
  rw [if_neg h2] at h
  by_cases h3 : messageType = TAG_PING
  · rw [if_pos h3] at h
    obtain ⟨nonce, hread, rfl⟩ := map_eq_ok.mp h
    rw [h3, Message.payload, decodePayload_reencode (primitive_consumes readU64_consumes) hread]
  rw [if_neg h3] at h
  by_cases h4 : messageType = TAG_PONG
  · rw [if_pos h4] at h
    obtain ⟨nonce, hread, rfl⟩ := map_eq_ok.mp h
    rw [h4, Message.payload, decodePayload_reencode (primitive_consumes readU64_consumes) hread]
  rw [if_neg h4] at h
  by_cases h5 : messageType = TAG_INV
  · rw [if_pos h5] at h
    obtain ⟨items, hread, rfl⟩ := map_eq_ok.mp h
    have hencode := decodePayload_readList_ok InventoryItem.read_consumes hread
    exact map_eq_ok.mpr ⟨payload, hencode, by rw [h5]⟩
  rw [if_neg h5] at h
  by_cases h6 : messageType = TAG_GET_DATA
  · rw [if_pos h6] at h
    obtain ⟨items, hread, rfl⟩ := map_eq_ok.mp h
    have hencode := decodePayload_readList_ok InventoryItem.read_consumes hread
    exact map_eq_ok.mpr ⟨payload, hencode, by rw [h6]⟩
  rw [if_neg h6] at h
  by_cases h7 : messageType = TAG_GET_HEADERS
  · rw [if_pos h7] at h
    obtain ⟨request, hread, rfl⟩ := map_eq_ok.mp h
    have hencode := decodeGetHeaders_ok hread
    exact map_eq_ok.mpr ⟨payload, hencode, by rw [h7]⟩
  rw [if_neg h7] at h
  by_cases h8 : messageType = TAG_HEADERS
  · rw [if_pos h8] at h
    obtain ⟨headers, hread, rfl⟩ := map_eq_ok.mp h
    have hencode := decodePayload_readList_ok readHeader_consumes hread
    exact map_eq_ok.mpr ⟨payload, hencode, by rw [h8]⟩
  rw [if_neg h8] at h
  by_cases h9 : messageType = TAG_TRANSACTION
  · rw [if_pos h9] at h
    obtain ⟨tx, hread, rfl⟩ := map_eq_ok.mp (mapError_eq_ok.mp h)
    rw [h9, Message.payload, Transaction.encode_of_decode hread]
  rw [if_neg h9] at h
  by_cases h10 : messageType = TAG_BLOCK
  · rw [if_pos h10] at h
    obtain ⟨b, hread, rfl⟩ := map_eq_ok.mp (mapError_eq_ok.mp h)
    rw [h10, Message.payload, Block.encode_of_decode hread]
  rw [if_neg h10] at h
  cases h

/-- A payload under its type: read back as the message, of a known type, within the limit. -/
structure Carries (messageType : UInt8) (payload : Bytes) (message : Message) : Prop where
  encode : message.payload = .ok (messageType, payload)
  decode : decodeBody messageType payload = .ok message
  known : isKnownMessageType messageType = true
  length : payload.length ≤ payloadLimit messageType

/-- A list of items of one size, of a type with the large limit. -/
theorem carries_list {α : Type} {p : PayloadReader α} {enc : α → Bytes} {max : UInt64} {size : ℕ}
    {xs : List α} (hp : ∀ x, ReadsTo True p x (enc x)) (hsize : ∀ x, (enc x).length = size)
    (hlist : xs.length ≤ max.toNat) (hroom : 9 + max.toNat * size ≤ MAX_FRAME_PAYLOAD) :
    ∃ payload, encodeList enc max xs = .ok payload ∧
      decodePayload (readList p max) payload = .ok xs ∧ payload.length ≤ MAX_FRAME_PAYLOAD := by
  have hencode : encodeList enc max xs = .ok (writeVarint xs.length ++ xs.flatMap enc) :=
    encodeList_ok.mpr ⟨hlist, rfl⟩
  have hlength := (encodeList_length_le hsize hencode).trans hroom
  have hframe : MAX_FRAME_PAYLOAD = 2097152 := rfl
  exact ⟨_, hencode, decodePayload_encode (readList_reads hp hlist) trivial (by omega), hlength⟩

/-- What is left to show of a payload whose type selects the decoder `decode`. -/
theorem Carries.of_decode {α : Type} {messageType : UInt8} {payload : Bytes} {wrap : α → Message}
    {x : α} {decode : Except ProtocolError α} (hselect : decodeBody messageType payload =
      decode.map wrap) (hdecode : decode = .ok x)
    (hencode : (wrap x).payload = .ok (messageType, payload))
    (hknown : isKnownMessageType messageType = true)
    (hlength : payload.length ≤ payloadLimit messageType) :
    Carries messageType payload (wrap x) :=
  ⟨hencode, by rw [hselect, hdecode]; rfl, hknown, hlength⟩

section Select

variable (payload : Bytes)

attribute [local simp] decodeBody TAG_HELLO TAG_HELLO_ACK TAG_PING TAG_PONG TAG_INV TAG_GET_DATA
  TAG_GET_HEADERS TAG_HEADERS TAG_TRANSACTION TAG_BLOCK

theorem decodeBody_hello : decodeBody TAG_HELLO payload =
    (decodeHello payload).map .hello := by simp

theorem decodeBody_helloAck : decodeBody TAG_HELLO_ACK payload =
    (decodeHelloAck payload).map .helloAck := by simp

theorem decodeBody_ping : decodeBody TAG_PING payload =
    (decodeNonce payload).map .ping := by simp

theorem decodeBody_pong : decodeBody TAG_PONG payload =
    (decodeNonce payload).map .pong := by simp

theorem decodeBody_inv : decodeBody TAG_INV payload =
    (decodeInventory payload MAX_INV_ITEMS).map .inv := by simp

theorem decodeBody_getData : decodeBody TAG_GET_DATA payload =
    (decodeInventory payload MAX_GETDATA_ITEMS).map .getData := by simp

theorem decodeBody_getHeaders : decodeBody TAG_GET_HEADERS payload =
    (decodeGetHeaders payload).map .getHeaders := by simp

theorem decodeBody_headers : decodeBody TAG_HEADERS payload =
    (decodeHeaders payload).map .headers := by simp

theorem decodeBody_transaction : decodeBody TAG_TRANSACTION payload =
    ((Transaction.decode payload .default).map .transaction).mapError .primitive := by simp

theorem decodeBody_block : decodeBody TAG_BLOCK payload =
    ((Block.decode payload .default).map .block).mapError .primitive := by simp

end Select

theorem Message.Sendable.carries {message : Message} (h : message.Sendable) :
    ∃ messageType payload, Carries messageType payload message := by
  cases message with
  | hello hello =>
    have hlength := hello.encode_length
    have hread := decodePayload_encode (primitive_reads hello.read_reads) trivial (by omega)
    exact ⟨TAG_HELLO, hello.encode, .of_decode (decodeBody_hello _) hread rfl (by decide) (by rw [hlength]; decide)⟩
  | helloAck ack =>
    have hlength := ack.encode_length
    have hread := decodePayload_encode (primitive_reads ack.read_reads) trivial (by omega)
    exact ⟨TAG_HELLO_ACK, ack.encode, .of_decode (decodeBody_helloAck _) hread rfl (by decide) (by rw [hlength]; decide)⟩
  | ping nonce =>
    have hlength : (leBytes 8 nonce.toNat).length = 8 := leBytes_length _ _
    have hread := decodePayload_encode (primitive_reads (readU64_reads nonce)) trivial (by omega)
    exact ⟨TAG_PING, _, .of_decode (decodeBody_ping _) hread rfl (by decide) (by rw [hlength]; decide)⟩
  | pong nonce =>
    have hlength : (leBytes 8 nonce.toNat).length = 8 := leBytes_length _ _
    have hread := decodePayload_encode (primitive_reads (readU64_reads nonce)) trivial (by omega)
    exact ⟨TAG_PONG, _, .of_decode (decodeBody_pong _) hread rfl (by decide) (by rw [hlength]; decide)⟩
  | inv items =>
    obtain ⟨payload, hencode, hread, hlength⟩ :=
      carries_list InventoryItem.read_reads InventoryItem.encode_length h (by decide)
    exact ⟨TAG_INV, payload, .of_decode (decodeBody_inv _) hread (map_eq_ok.mpr ⟨payload, hencode, rfl⟩)
      (by decide) hlength⟩
  | getData items =>
    obtain ⟨payload, hencode, hread, hlength⟩ :=
      carries_list InventoryItem.read_reads InventoryItem.encode_length h (by decide)
    exact ⟨TAG_GET_DATA, payload, .of_decode (decodeBody_getData _) hread (map_eq_ok.mpr ⟨payload, hencode, rfl⟩)
      (by decide) hlength⟩
  | getHeaders request =>
    have hencode := encodeGetHeaders_ok.mpr ⟨_, encodeList_ok.mpr ⟨h, rfl⟩, rfl⟩
    have hlength := encodeGetHeaders_length_le hencode
    have hread := decodePayload_encode (GetHeaders.read_reads hencode) trivial (by omega)
    exact ⟨TAG_GET_HEADERS, _, .of_decode (decodeBody_getHeaders _) hread (map_eq_ok.mpr ⟨_, hencode, rfl⟩) (by decide)
      (hlength.trans (by decide))⟩
  | headers headers =>
    obtain ⟨payload, hencode, hread, hlength⟩ :=
      carries_list readHeader_reads BlockHeader.encode_length h (by decide)
    exact ⟨TAG_HEADERS, payload, .of_decode (decodeBody_headers _) hread (map_eq_ok.mpr ⟨payload, hencode, rfl⟩)
      (by decide) hlength⟩
  | transaction tx =>
    obtain ⟨⟨bytes, hread⟩, hlength⟩ := h
    obtain rfl := Transaction.encode_of_decode hread
    refine ⟨TAG_TRANSACTION, tx.encode, rfl, ?_, by decide, hlength.trans (by decide)⟩
    rw [decodeBody_transaction, hread]
    rfl
  | block b =>
    obtain ⟨⟨bytes, hread⟩, hlength⟩ := h
    obtain rfl := Block.encode_of_decode hread
    refine ⟨TAG_BLOCK, b.encode, rfl, ?_, by decide, hlength.trans (by decide)⟩
    rw [decodeBody_block, hread]
    rfl

theorem encodeMessage_of_decodeMessage {messageType : UInt8} {payload : Bytes} {message : Message}
    (h : decodeMessage messageType payload = .ok message) :
    encodeMessage message = .ok (messageType, payload) := by
  simp only [decodeMessage, bind_eq_ok, ensure_eq_ok, exists_and_left, exists_const] at h
  obtain ⟨-, hlength, hbody⟩ := h
  rw [encodeMessage, payload_of_decodeBody hbody, ok_bind]
  dsimp only
  rw [ensure_ok hlength, ok_bind]
  rfl

theorem Carries.encodeMessage {messageType : UInt8} {payload : Bytes} {message : Message}
    (h : Carries messageType payload message) :
    Protocol.encodeMessage message = .ok (messageType, payload) := by
  rw [Protocol.encodeMessage, h.encode, ok_bind]
  dsimp only
  rw [ensure_ok h.length, ok_bind]
  rfl

theorem Carries.decodeMessage {messageType : UInt8} {payload : Bytes} {message : Message}
    (h : Carries messageType payload message) :
    Protocol.decodeMessage messageType payload = .ok message := by
  rw [Protocol.decodeMessage, ensure_ok h.known, ok_bind, ensure_ok h.length, ok_bind, h.decode]

end Payloads

section Frames

variable [Crypto]

/-- A frame that stands first in the stream is read as the message it carries, in whatever
segments it arrives. -/
theorem readMessage_frame {magic : UInt32} {message : Message} {messageType : UInt8}
    {payload rest : Bytes} {header : FrameHeader} {stream : Stream}
    (hcarries : Carries messageType payload message)
    (hbuild : buildFrameHeader magic messageType payload = .ok header)
    (hstream : stream.available = header.encode ++ payload ++ rest) :
    ∃ stream', readMessage magic stream = .ok (message, stream') ∧ stream'.available = rest := by
  obtain ⟨header', hbuild', hvalid, hmagic, htype, hlength, hchecksum⟩ :=
    buildFrameHeader_ok magic hcarries.known hcarries.length
  rw [hbuild, Except.ok.injEq] at hbuild'
  subst header'
  rw [List.append_assoc] at hstream
  obtain ⟨middle, hfirst, hmiddle⟩ := readExactCounted_append hstream
  obtain ⟨last, hsecond, hlast⟩ := readExactCounted_append hmiddle
  have hverify : verifyFramePayload header magic payload = .ok () :=
    verifyFramePayload_ok.mpr ⟨hvalid, hmagic, hlength, by rw [hmagic, htype, hchecksum]⟩
  rw [header.encode_length] at hfirst
  refine ⟨last, ?_, hlast⟩
  simp only [readMessage, hfirst, ok_bind, FrameHeader.decode_ok.mpr ⟨rfl, hvalid⟩, mapError_ok,
    ensure_ok hmagic, hlength, hsecond, hverify, htype, hcarries.decodeMessage]
  rfl

/-- Whatever a connection returns came in a frame that passed every check. -/
theorem frame_of_readMessage {magic : UInt32} {message : Message} {stream stream' : Stream}
    (h : readMessage magic stream = .ok (message, stream')) :
    ∃ (header : FrameHeader) (payload : Bytes), stream.available = header.encode ++ payload ++ stream'.available ∧
      header.Valid ∧ header.networkMagic = magic ∧
      header.payloadLength.toNat = payload.length ∧
      header.checksum = frameChecksum magic header.messageType header.payloadLength payload ∧
      decodeMessage header.messageType payload = .ok message := by
  simp only [readMessage, bind_eq_ok, ensure_eq_ok, mapError_eq_ok, exists_and_left, exists_const,
    pure_eq_ok, Prod.exists, Prod.mk.injEq, verifyFramePayload_ok] at h
  obtain ⟨bytes, middle, hfirst, header, hdecode, hmagic, payload, last, hsecond,
    ⟨hvalid, -, hlength, hchecksum⟩, _, hmessage, rfl, rfl⟩ := h
  obtain ⟨-, hbytes⟩ := readExactCounted_ok (Nat.zero_le _) hfirst
  obtain ⟨-, hrest⟩ := readExactCounted_ok (Nat.zero_le _) hsecond
  obtain ⟨rfl, -⟩ := FrameHeader.decode_ok.mp hdecode
  grind

/-- The wire protocol is canonical, loses nothing and lets nothing else through. -/
theorem wire_protocol_lossless :
    (∀ messageType payload message, decodeMessage messageType payload = .ok message →
      encodeMessage message = .ok (messageType, payload)) ∧
    (∀ magic (message : Message), message.Sendable →
      ∃ messageType payload header, encodeMessage message = .ok (messageType, payload) ∧
        buildFrameHeader magic messageType payload = .ok header ∧
        writeMessage magic message (.ok ()) = .ok (header.encode ++ payload) ∧
        ∀ (stream : Stream) rest, stream.available = header.encode ++ payload ++ rest →
          ∃ stream', readMessage magic stream = .ok (message, stream') ∧
            stream'.available = rest) ∧
    ∀ magic (stream : Stream) message stream', readMessage magic stream = .ok (message, stream') →
      ∃ (header : FrameHeader) (payload : Bytes), stream.available = header.encode ++ payload ++ stream'.available ∧
        header.networkMagic = magic ∧ header.frameVersion = 1 ∧ header.flags = 0 ∧
        header.payloadLength.toNat = payload.length ∧
        payload.length ≤ payloadLimit header.messageType ∧
        header.checksum = frameChecksum magic header.messageType header.payloadLength payload ∧
        decodeMessage header.messageType payload = .ok message := by
  refine ⟨fun _ _ _ h => encodeMessage_of_decodeMessage h, fun magic message h => ?_,
    fun magic stream message stream' h => ?_⟩
  · obtain ⟨messageType, payload, hcarries⟩ := h.carries
    obtain ⟨header, hbuild, -⟩ := buildFrameHeader_ok magic hcarries.known hcarries.length
    refine ⟨messageType, payload, header, hcarries.encodeMessage, hbuild, ?_,
      fun stream rest hstream => readMessage_frame hcarries hbuild hstream⟩
    simp only [writeMessage, hcarries.encodeMessage, mapError_ok, ok_bind, hbuild]
    rfl
  · obtain ⟨header, payload, hstream, hvalid, hmagic, hlength, hchecksum, hmessage⟩ :=
      frame_of_readMessage h
    exact ⟨header, payload, hstream, hmagic, hvalid.frameVersion, hvalid.flags, hlength,
      hlength ▸ hvalid.payloadLength, hchecksum, hmessage⟩

end Frames

end Oregon.Protocol
