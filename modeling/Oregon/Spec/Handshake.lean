import Oregon.Spec.Protocol

/-! The handshake between two peers: each side announces itself, negotiates a version and a
set of features from both announcements, and waits for the other side to acknowledge the
same result. -/

namespace Oregon

open Lib

namespace Protocol

def FeatureSet.HEADERS_SYNC : FeatureSet := ⟨(1 : UInt64) <<< 0⟩
def FeatureSet.BLOCK_RELAY : FeatureSet := ⟨(1 : UInt64) <<< 1⟩
def FeatureSet.TX_RELAY : FeatureSet := ⟨(1 : UInt64) <<< 2⟩
def FeatureSet.KNOWN : FeatureSet := ⟨HEADERS_SYNC.bits ||| BLOCK_RELAY.bits ||| TX_RELAY.bits⟩

def FeatureSet.contains (s other : FeatureSet) : Bool := s.bits &&& other.bits = other.bits

def FeatureSet.bitand (s other : FeatureSet) : FeatureSet := ⟨s.bits &&& other.bits⟩

structure Negotiated where
  protocolVersion : UInt16
  features : FeatureSet
  deriving DecidableEq, Repr

def validateRange (hello : Hello) : Except ProtocolError Unit :=
  ensure (¬(hello.minProtocolVersion = 0 ∨ hello.maxProtocolVersion < hello.minProtocolVersion))
    (.invalidProtocolVersionRange hello.minProtocolVersion hello.maxProtocolVersion)

def validateRequiredSubset (hello : Hello) : Except ProtocolError Unit :=
  let missing := hello.requiredFeatures.bits &&& ~~~hello.offeredFeatures.bits
  ensure (missing = 0) (.requiredFeaturesNotOffered missing)

/-- The required features of one of two peers that the other one, or this version of the
protocol, does not have. -/
def unsupportedFeatures (here there : Hello) : UInt64 :=
  (here.requiredFeatures.bits &&& ~~~there.offeredFeatures.bits) |||
    (there.requiredFeatures.bits &&& ~~~here.offeredFeatures.bits) |||
    (here.requiredFeatures.bits &&& ~~~FeatureSet.KNOWN.bits) |||
    (there.requiredFeatures.bits &&& ~~~FeatureSet.KNOWN.bits)

def negotiate (here there : Hello) : Except ProtocolError Negotiated := do
  validateRange here
  validateRange there
  validateRequiredSubset here
  validateRequiredSubset there
  let minimum := max here.minProtocolVersion there.minProtocolVersion
  let maximum := min here.maxProtocolVersion there.maxProtocolVersion
  ensure (minimum ≤ maximum) .noCommonProtocolVersion
  let unsupported := unsupportedFeatures here there
  ensure (unsupported = 0) (.unsupportedRequiredFeatures unsupported)
  pure
    { protocolVersion := maximum
      features := (here.offeredFeatures.bitand there.offeredFeatures).bitand .KNOWN }

end Protocol

namespace Peer

open Protocol

inductive Direction where
  | inbound
  | outbound
  deriving DecidableEq, Repr

inductive PeerError where
  | invalidConfig (reason : String)
  | pendingHandshakeLimit
  | peerLimit
  | directionLimit (direction : Direction)
  | handshakeViolation (reason : String)
  | wrongChain
  | selfPeer
  | duplicatePeer
  | ackMismatch
  | queueEnqueueTimeout
  | queueItemTooLarge
  | peerIdExhausted
  | protocol (e : ProtocolError)
  deriving DecidableEq, Repr

inductive HandshakeState where
  | connected
  | helloSent
  | negotiated
  | ackSent
  | established
  deriving DecidableEq, Repr

structure HandshakeMachine where
  localHello : Hello
  remote : Option Hello
  negotiated : Option Negotiated
  state : HandshakeState
  deriving DecidableEq, Repr

namespace HandshakeMachine

def new (localHello : Hello) : HandshakeMachine :=
  { localHello, remote := none, negotiated := none, state := .connected }

def start (m : HandshakeMachine) : Except PeerError (HandshakeMachine × Message) := do
  ensure (m.state = .connected) (.handshakeViolation "Hello sent twice")
  pure ({ m with state := .helloSent }, .hello m.localHello)

/-- The announcement of the other side, while it is waited for. -/
def onHello (m : HandshakeMachine) (remote : Hello) :
    Except PeerError (HandshakeMachine × Option Message) := do
  ensure (remote.chainId = m.localHello.chainId) .wrongChain
  ensure (remote.instanceNonce ≠ m.localHello.instanceNonce) .selfPeer
  let negotiated ← (negotiate m.localHello remote).mapError .protocol
  let ack : HelloAck :=
    { selectedProtocolVersion := negotiated.protocolVersion
      enabledFeatures := negotiated.features
      remoteNonceEcho := remote.instanceNonce }
  pure ({ m with remote := some remote, negotiated := some negotiated, state := .ackSent },
    some (.helloAck ack))

/-- The acknowledgement of the other side, while it is waited for. -/
def onHelloAck (m : HandshakeMachine) (ack : HelloAck) :
    Except PeerError (HandshakeMachine × Option Message) := do
  let negotiated ←
    orElse m.negotiated (.handshakeViolation "HelloAck received before negotiation")
  ensure (ack.selectedProtocolVersion = negotiated.protocolVersion ∧
    ack.enabledFeatures = negotiated.features ∧
    ack.remoteNonceEcho = m.localHello.instanceNonce) .ackMismatch
  pure ({ m with state := .established }, none)

def onMessage (m : HandshakeMachine) (message : Message) :
    Except PeerError (HandshakeMachine × Option Message) :=
  match message with
  | .ping nonce =>
    if m.state ≠ .established then pure (m, some (.pong nonce))
    else .error (.handshakeViolation "handshake machine used after Established")
  | .pong _ =>
    if m.state ≠ .established then pure (m, none)
    else .error (.handshakeViolation "handshake machine used after Established")
  | .hello remote =>
    if m.state = .helloSent then m.onHello remote
    else .error (.handshakeViolation "unexpected Hello")
  | .helloAck ack =>
    if m.state = .ackSent then m.onHelloAck ack
    else .error (.handshakeViolation "unexpected HelloAck")
  | _ =>
    if m.state ≠ .established then
      .error (.handshakeViolation "application message received before Established")
    else .error (.handshakeViolation "handshake machine used after Established")

/-- The loop of `perform_handshake` over the messages that arrive, with the messages it writes;
it reads nothing more once the machine is established. -/
def consume (m : HandshakeMachine) :
    List Message → Except PeerError (HandshakeMachine × List Message)
  | [] => .ok (m, [])
  | message :: rest =>
    if m.state = .established then .ok (m, [])
    else do
      let (m, response) ← m.onMessage message
      let (m, responses) ← m.consume rest
      pure (m, response.toList ++ responses)

end HandshakeMachine

/-- The sixteen bytes of a nonce. -/
def nonceBytes (nonce : BitVec 128) : Bytes := leBytes 16 nonce.toNat

/-- Nonces are compared as arrays of bytes. -/
def preferredDirection (localNonce remoteNonce : BitVec 128) : Except PeerError Direction := do
  ensure (localNonce ≠ remoteNonce) .selfPeer
  pure (if nonceBytes localNonce < nonceBytes remoteNonce then .outbound else .inbound)

end Peer

end Oregon
