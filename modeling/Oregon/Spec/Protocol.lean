import Oregon.Spec.Block

/-! The wire protocol: the messages and their payloads, the frames they travel in, and
the connection that reads frames from a stream and writes them to it. -/

namespace Oregon.Protocol

open Lib

def FRAME_HEADER_BYTES : ℕ := 16
def FRAME_VERSION : UInt8 := 1

def MAX_FRAME_PAYLOAD : ℕ := 2 * 1024 * 1024
def MAX_HANDSHAKE_PAYLOAD : ℕ := 4 * 1024
def MAX_INV_ITEMS : UInt64 := 4096
def MAX_GETDATA_ITEMS : UInt64 := 128
def MAX_LOCATOR_HASHES : UInt64 := 64
def MAX_HEADERS_PER_MESSAGE : UInt64 := 128
def BLOCK_HEADER_BYTES : ℕ := 114

def TAG_HELLO : UInt8 := 0x01
def TAG_HELLO_ACK : UInt8 := 0x02
def TAG_PING : UInt8 := 0x03
def TAG_PONG : UInt8 := 0x04
def TAG_INV : UInt8 := 0x10
def TAG_GET_DATA : UInt8 := 0x11
def TAG_GET_HEADERS : UInt8 := 0x20
def TAG_HEADERS : UInt8 := 0x21
def TAG_TRANSACTION : UInt8 := 0x30
def TAG_BLOCK : UInt8 := 0x31

def isKnownMessageType (messageType : UInt8) : Bool :=
  messageType ∈ [TAG_HELLO, TAG_HELLO_ACK, TAG_PING, TAG_PONG, TAG_INV, TAG_GET_DATA,
    TAG_GET_HEADERS, TAG_HEADERS, TAG_TRANSACTION, TAG_BLOCK]

def payloadLimit (messageType : UInt8) : ℕ :=
  if messageType = TAG_HELLO ∨ messageType = TAG_HELLO_ACK then MAX_HANDSHAKE_PAYLOAD
  else MAX_FRAME_PAYLOAD

inductive ProtocolError where
  | unknownMessageType (messageType : UInt8)
  | unknownInventoryKind (kind : UInt8)
  | listLimitExceeded (actual max : ℕ)
  | payloadTooLarge (actual max : ℕ)
  | unsupportedFrameVersion (version : UInt8)
  | nonZeroFlags (flags : UInt16)
  | wrongNetworkMagic
  | payloadLengthMismatch (declared : UInt32) (actual : ℕ)
  | checksumMismatch
  | invalidStopFlag (flag : UInt8)
  | invalidProtocolVersionRange (min max : UInt16)
  | noCommonProtocolVersion
  | requiredFeaturesNotOffered (missing : UInt64)
  | unsupportedRequiredFeatures (unsupported : UInt64)
  | primitive (e : PrimitiveError)
  deriving DecidableEq, Repr

section Messages

structure FeatureSet where
  bits : UInt64
  deriving DecidableEq, Repr

structure Hello where
  minProtocolVersion : UInt16
  maxProtocolVersion : UInt16
  chainId : Hash256
  instanceNonce : BitVec 128
  offeredFeatures : FeatureSet
  requiredFeatures : FeatureSet
  bestHeight : UInt64
  bestBlockId : Hash256
  deriving DecidableEq, Repr

structure HelloAck where
  selectedProtocolVersion : UInt16
  enabledFeatures : FeatureSet
  remoteNonceEcho : BitVec 128
  deriving DecidableEq, Repr

inductive InventoryKind where
  | transaction
  | block
  deriving DecidableEq, Repr

structure InventoryItem where
  kind : InventoryKind
  hash : Hash256
  deriving DecidableEq, Repr

structure GetHeaders where
  locator : List Hash256
  stop : Option Hash256
  deriving DecidableEq, Repr

inductive Message where
  | hello (hello : Hello)
  | helloAck (ack : HelloAck)
  | ping (nonce : UInt64)
  | pong (nonce : UInt64)
  | inv (items : List InventoryItem)
  | getData (items : List InventoryItem)
  | getHeaders (request : GetHeaders)
  | headers (headers : List BlockHeader)
  | transaction (transaction : Transaction)
  | block (block : Block)
  deriving DecidableEq, Repr

abbrev PayloadReader := Reader ProtocolError

/-- A reader of primitives, with its errors passed on. -/
def primitive {α : Type} (p : Decoder α) : PayloadReader α := p.mapError .primitive

/-- A payload is read to its end. -/
def decodePayload {α : Type} (p : PayloadReader α) (payload : Bytes) : Except ProtocolError α := do
  let r ← p ⟨payload, 0⟩
  ensure (r.2.rest = []) (.primitive .trailingBytes)
  pure r.1

/-- Sixteen bytes, kept as the little-endian number they spell. -/
def readNonce : Decoder (BitVec 128) := do
  let bytes ← readBytes 16
  pure (BitVec.ofNat 128 (readLE bytes))

def Hello.encode (hello : Hello) : Bytes :=
  leBytes 2 hello.minProtocolVersion.toNat ++ leBytes 2 hello.maxProtocolVersion.toNat ++
    Hash256.asBytes hello.chainId ++ leBytes 16 hello.instanceNonce.toNat ++
    leBytes 8 hello.offeredFeatures.bits.toNat ++ leBytes 8 hello.requiredFeatures.bits.toNat ++
    leBytes 8 hello.bestHeight.toNat ++ Hash256.asBytes hello.bestBlockId

def Hello.read : Decoder Hello := do
  let minProtocolVersion ← readU16
  let maxProtocolVersion ← readU16
  let chainId ← readHash
  let instanceNonce ← readNonce
  let offeredFeatures ← readU64
  let requiredFeatures ← readU64
  let bestHeight ← readU64
  let bestBlockId ← readHash
  pure { minProtocolVersion, maxProtocolVersion, chainId, instanceNonce,
         offeredFeatures := ⟨offeredFeatures⟩, requiredFeatures := ⟨requiredFeatures⟩,
         bestHeight, bestBlockId }

def decodeHello (payload : Bytes) : Except ProtocolError Hello :=
  decodePayload (primitive Hello.read) payload

def HelloAck.encode (ack : HelloAck) : Bytes :=
  leBytes 2 ack.selectedProtocolVersion.toNat ++ leBytes 8 ack.enabledFeatures.bits.toNat ++
    leBytes 16 ack.remoteNonceEcho.toNat

def HelloAck.read : Decoder HelloAck := do
  let selectedProtocolVersion ← readU16
  let enabledFeatures ← readU64
  let remoteNonceEcho ← readNonce
  pure { selectedProtocolVersion, enabledFeatures := ⟨enabledFeatures⟩, remoteNonceEcho }

def decodeHelloAck (payload : Bytes) : Except ProtocolError HelloAck :=
  decodePayload (primitive HelloAck.read) payload

def decodeNonce (payload : Bytes) : Except ProtocolError UInt64 :=
  decodePayload (primitive readU64) payload

def InventoryKind.tag : InventoryKind → UInt8
  | transaction => 0x01
  | block => 0x02

def InventoryKind.decode (value : UInt8) : Except ProtocolError InventoryKind :=
  if value = 0x01 then .ok .transaction
  else if value = 0x02 then .ok .block
  else .error (.unknownInventoryKind value)

def InventoryItem.encode (item : InventoryItem) : Bytes :=
  item.kind.tag :: Hash256.asBytes item.hash

def InventoryItem.read : PayloadReader InventoryItem := do
  let byte ← primitive readByte
  let kind ← checked (InventoryKind.decode byte)
  let hash ← primitive readHash
  pure { kind, hash }

def enforceListLimit (actual : ℕ) (max : UInt64) : Except ProtocolError Unit :=
  ensure (actual ≤ max.toNat) (.listLimitExceeded actual max.toNat)

/-- A list within its limit, behind its length. -/
def encodeList {α : Type} (encode : α → Bytes) (max : UInt64) (xs : List α) :
    Except ProtocolError Bytes := do
  enforceListLimit xs.length max
  pure (writeVarint xs.length ++ xs.flatMap encode)

def readList {α : Type} (p : PayloadReader α) (max : UInt64) : PayloadReader (List α) := do
  let count ← primitive (readLen max)
  times count p

def encodeInventory (items : List InventoryItem) (max : UInt64) : Except ProtocolError Bytes :=
  encodeList InventoryItem.encode max items

def decodeInventory (payload : Bytes) (max : UInt64) : Except ProtocolError (List InventoryItem) :=
  decodePayload (readList InventoryItem.read max) payload

def encodeGetHeaders (request : GetHeaders) : Except ProtocolError Bytes := do
  let locator ← encodeList Hash256.asBytes MAX_LOCATOR_HASHES request.locator
  pure (locator ++ encodeOption Hash256.asBytes request.stop)

def GetHeaders.read : PayloadReader GetHeaders := do
  let locator ← readList (primitive readHash) MAX_LOCATOR_HASHES
  let stop ← optional (primitive readByte) .invalidStopFlag (primitive readHash)
  pure { locator, stop }

def decodeGetHeaders (payload : Bytes) : Except ProtocolError GetHeaders :=
  decodePayload GetHeaders.read payload

def encodeHeaders (headers : List BlockHeader) : Except ProtocolError Bytes :=
  encodeList BlockHeader.encode MAX_HEADERS_PER_MESSAGE headers

/-- A header is cut out of the payload and decoded by itself. -/
def readHeader : PayloadReader BlockHeader := do
  let bytes ← primitive (readBytes BLOCK_HEADER_BYTES)
  checked ((BlockHeader.decode bytes).mapError .primitive)

def decodeHeaders (payload : Bytes) : Except ProtocolError (List BlockHeader) :=
  decodePayload (readList readHeader MAX_HEADERS_PER_MESSAGE) payload

/-- The type of a message and its payload, before the payload is measured. -/
def Message.payload : Message → Except ProtocolError (UInt8 × Bytes)
  | .hello h => .ok (TAG_HELLO, h.encode)
  | .helloAck ack => .ok (TAG_HELLO_ACK, ack.encode)
  | .ping nonce => .ok (TAG_PING, leBytes 8 nonce.toNat)
  | .pong nonce => .ok (TAG_PONG, leBytes 8 nonce.toNat)
  | .inv items => (encodeInventory items MAX_INV_ITEMS).map fun bytes => (TAG_INV, bytes)
  | .getData items => (encodeInventory items MAX_GETDATA_ITEMS).map fun bytes => (TAG_GET_DATA, bytes)
  | .getHeaders request => (encodeGetHeaders request).map fun bytes => (TAG_GET_HEADERS, bytes)
  | .headers list => (encodeHeaders list).map fun bytes => (TAG_HEADERS, bytes)
  | .transaction tx => .ok (TAG_TRANSACTION, tx.encode)
  | .block b => .ok (TAG_BLOCK, b.encode)

def encodeMessage (message : Message) : Except ProtocolError (UInt8 × Bytes) := do
  let (messageType, payload) ← message.payload
  ensure (payload.length ≤ payloadLimit messageType)
    (.payloadTooLarge payload.length (payloadLimit messageType))
  pure (messageType, payload)

/-- The decoder that a message type selects. -/
def decodeBody (messageType : UInt8) (payload : Bytes) : Except ProtocolError Message :=
  if messageType = TAG_HELLO then (decodeHello payload).map .hello
  else if messageType = TAG_HELLO_ACK then (decodeHelloAck payload).map .helloAck
  else if messageType = TAG_PING then (decodeNonce payload).map .ping
  else if messageType = TAG_PONG then (decodeNonce payload).map .pong
  else if messageType = TAG_INV then (decodeInventory payload MAX_INV_ITEMS).map .inv
  else if messageType = TAG_GET_DATA then (decodeInventory payload MAX_GETDATA_ITEMS).map .getData
  else if messageType = TAG_GET_HEADERS then (decodeGetHeaders payload).map .getHeaders
  else if messageType = TAG_HEADERS then (decodeHeaders payload).map .headers
  else if messageType = TAG_TRANSACTION then
    ((Transaction.decode payload .default).map .transaction).mapError .primitive
  else if messageType = TAG_BLOCK then
    ((Block.decode payload .default).map .block).mapError .primitive
  else .error (.unknownMessageType messageType)

def decodeMessage (messageType : UInt8) (payload : Bytes) : Except ProtocolError Message := do
  ensure (isKnownMessageType messageType) (.unknownMessageType messageType)
  ensure (payload.length ≤ payloadLimit messageType)
    (.payloadTooLarge payload.length (payloadLimit messageType))
  decodeBody messageType payload

end Messages

section Frames

def FRAME_DOMAIN : Bytes := ascii "OREGON/FRAME/V1\x00"

/-- The magic and the checksum are four bytes each, kept as the little-endian numbers they
spell. -/
structure FrameHeader where
  networkMagic : UInt32
  frameVersion : UInt8
  messageType : UInt8
  flags : UInt16
  payloadLength : UInt32
  checksum : UInt32
  deriving DecidableEq, Repr

def validatePayloadSize (messageType : UInt8) (actual : ℕ) : Except ProtocolError Unit := do
  ensure (isKnownMessageType messageType) (.unknownMessageType messageType)
  ensure (actual ≤ payloadLimit messageType) (.payloadTooLarge actual (payloadLimit messageType))

def validateHeaderFields (frameVersion messageType : UInt8) (flags : UInt16)
    (payloadLength : UInt32) : Except ProtocolError Unit := do
  ensure (frameVersion = FRAME_VERSION) (.unsupportedFrameVersion frameVersion)
  ensure (isKnownMessageType messageType) (.unknownMessageType messageType)
  ensure (flags = 0) (.nonZeroFlags flags)
  validatePayloadSize messageType payloadLength.toNat

def FrameHeader.encode (header : FrameHeader) : Bytes :=
  leBytes 4 header.networkMagic.toNat ++ [header.frameVersion] ++ [header.messageType] ++
    leBytes 2 header.flags.toNat ++ leBytes 4 header.payloadLength.toNat ++
    leBytes 4 header.checksum.toNat

def FrameHeader.read : Decoder FrameHeader := do
  let networkMagic ← readU32
  let frameVersion ← readByte
  let messageType ← readByte
  let flags ← readU16
  let payloadLength ← readU32
  let checksum ← readU32
  pure { networkMagic, frameVersion, messageType, flags, payloadLength, checksum }

def FrameHeader.decode (bytes : Bytes) : Except ProtocolError FrameHeader := do
  let header ← decodePayload (primitive FrameHeader.read) bytes
  validateHeaderFields header.frameVersion header.messageType header.flags header.payloadLength
  pure header

def firstFour (hash : Hash256) : UInt32 := UInt32.ofNat (readLE ((Hash256.asBytes hash).take 4))

variable [Crypto]

def frameChecksum (networkMagic : UInt32) (messageType : UInt8) (payloadLength : UInt32)
    (payload : Bytes) : UInt32 :=
  firstFour (Crypto.blake3 (FRAME_DOMAIN ++ leBytes 4 networkMagic.toNat ++
    [FRAME_VERSION, messageType] ++ leBytes 2 0 ++ leBytes 4 payloadLength.toNat ++ payload))

def buildFrameHeader (networkMagic : UInt32) (messageType : UInt8) (payload : Bytes) :
    Except ProtocolError FrameHeader := do
  validatePayloadSize messageType payload.length
  ensure (payload.length < 2 ^ 32)
    (.payloadTooLarge payload.length (payloadLimit messageType))
  let payloadLength := UInt32.ofNat payload.length
  validateHeaderFields FRAME_VERSION messageType 0 payloadLength
  pure { networkMagic, frameVersion := FRAME_VERSION, messageType, flags := 0, payloadLength,
         checksum := frameChecksum networkMagic messageType payloadLength payload }

def verifyFramePayload (header : FrameHeader) (expectedMagic : UInt32) (payload : Bytes) :
    Except ProtocolError Unit := do
  validateHeaderFields header.frameVersion header.messageType header.flags header.payloadLength
  ensure (header.networkMagic = expectedMagic) .wrongNetworkMagic
  ensure (header.payloadLength.toNat = payload.length)
    (.payloadLengthMismatch header.payloadLength payload.length)
  ensure (header.checksum =
    frameChecksum header.networkMagic header.messageType header.payloadLength payload)
    .checksumMismatch

end Frames

section Connection

inductive NetworkError where
  | io
  | protocol (e : ProtocolError)
  | oversizedFrame (declared : UInt32) (max : ℕ)
  | truncatedFrame (received expected : ℕ)
  | readNoProgressTimeout
  | readDeadlineExceeded
  | writeDeadlineExceeded
  deriving DecidableEq, Repr

/-- What the next read of the stream meets: bytes, none of them if the stream has ended; a
failure of the stream; or one of the two timers. -/
inductive Arrival where
  | segment (bytes : Bytes)
  | failed
  | stalled
  | late
  deriving DecidableEq, Repr

abbrev Stream := List Arrival

/-- The bytes that fill a buffer of the expected length, and the stream behind them. A segment
that is longer than what is missing stays in the stream with its rest. -/
def readExactCounted (expected : ℕ) (buffer : Bytes) :
    Stream → Except NetworkError (Bytes × Stream)
  | [] => if expected ≤ buffer.length then .ok (buffer, [])
    else .error (.truncatedFrame buffer.length expected)
  | arrival :: stream =>
    if expected ≤ buffer.length then .ok (buffer, arrival :: stream)
    else match arrival with
    | .late => .error .readDeadlineExceeded
    | .stalled => .error .readNoProgressTimeout
    | .failed => .error .io
    | .segment bytes =>
      if bytes = [] then .error (.truncatedFrame buffer.length expected)
      else if bytes.length ≤ expected - buffer.length then
        readExactCounted expected (buffer ++ bytes) stream
      else .ok (buffer ++ bytes.take (expected - buffer.length),
        .segment (bytes.drop (expected - buffer.length)) :: stream)

/-- How a frame header that is refused is reported. -/
def NetworkError.ofHeader : ProtocolError → NetworkError
  | .payloadTooLarge actual max => oversizedFrame (UInt32.ofNat actual) max
  | e => protocol e

variable [Crypto]

def readMessage (magic : UInt32) (stream : Stream) : Except NetworkError (Message × Stream) := do
  let (bytes, stream) ← readExactCounted FRAME_HEADER_BYTES [] stream
  let header ← (FrameHeader.decode bytes).mapError .ofHeader
  ensure (header.networkMagic = magic) (.protocol .wrongNetworkMagic)
  let (payload, stream) ← readExactCounted header.payloadLength.toNat [] stream
  (verifyFramePayload header magic payload).mapError .protocol
  let message ← (decodeMessage header.messageType payload).mapError .protocol
  pure (message, stream)

/-- What a message puts on the wire. The outcome of writing it is the stream's. -/
def writeMessage (magic : UInt32) (message : Message) (outcome : Except NetworkError Unit) :
    Except NetworkError Bytes := do
  let (messageType, payload) ← (encodeMessage message).mapError .protocol
  let header ← (buildFrameHeader magic messageType payload).mapError .protocol
  outcome
  pure (header.encode ++ payload)

end Connection

end Oregon.Protocol
