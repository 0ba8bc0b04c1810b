import Oregon.Spec.Consensus
import Oregon.Spec.Handshake
import Oregon.Spec.Requests

/-! The registry of a node's peers: how many handshakes are under way, which peer is registered
under which nonce, and how many there are in each direction. Every operation holds the lock of
the registry from its beginning to its end. -/

namespace Oregon.Peer

open Lib Protocol Std

instance instTransOrdNonce : TransOrd (BitVec 128) := inferInstance

def DEFAULT_MAX_PEERS : ℕ := 64
def DEFAULT_MAX_OUTBOUND : ℕ := 16
def DEFAULT_MAX_INBOUND : ℕ := 48
def HARD_MAX_PEERS : ℕ := 128
def MAX_PENDING_HANDSHAKES : ℕ := 32

structure PeerConfig where
  maxPeers : ℕ
  maxOutbound : ℕ
  maxInbound : ℕ
  deriving DecidableEq, Repr

def PeerConfig.new (maxPeers maxOutbound maxInbound : ℕ) : Except PeerError PeerConfig := do
  ensure (maxPeers ≠ 0) (.invalidConfig "max_peers must be nonzero")
  ensure (maxPeers ≤ HARD_MAX_PEERS) (.invalidConfig "max_peers exceeds hard limit")
  let directional ←
    orElse (checkedAdd maxOutbound maxInbound) (.invalidConfig "peer limit sum overflow")
  ensure (directional ≤ maxPeers) (.invalidConfig "inbound + outbound exceeds max_peers")
  pure { maxPeers, maxOutbound, maxInbound }

def PeerConfig.default : PeerConfig where
  maxPeers := DEFAULT_MAX_PEERS
  maxOutbound := DEFAULT_MAX_OUTBOUND
  maxInbound := DEFAULT_MAX_INBOUND

def PeerConfig.limit (config : PeerConfig) : Direction → ℕ
  | .inbound => config.maxInbound
  | .outbound => config.maxOutbound

structure RegisteredPeer where
  peerId : PeerId
  direction : Direction
  deriving DecidableEq, Repr

structure Registry where
  pending : ℕ
  inbound : ℕ
  outbound : ℕ
  nextPeerId : PeerId
  byNonce : ExtTreeMap (BitVec 128) RegisteredPeer

/-- What a session holds of its registration. -/
structure Registration where
  peerId : PeerId
  remoteNonce : BitVec 128
  deriving DecidableEq, Repr

/-- What a handshake with a peer has led to. -/
structure HandshakeResult where
  remote : Hello
  negotiated : Negotiated
  deriving DecidableEq, Repr

structure EstablishedPeer (Addr : Type) where
  peerId : PeerId
  remoteAddr : Addr
  direction : Direction
  negotiatedVersion : UInt16
  features : FeatureSet
  remoteBestHeight : UInt64
  remoteBestBlockId : Hash256

namespace Registry

def new : Registry where
  pending := 0
  inbound := 0
  outbound := 0
  nextPeerId := 1
  byNonce := ∅

def count (r : Registry) : Direction → ℕ
  | .inbound => r.inbound
  | .outbound => r.outbound

def increment (r : Registry) : Direction → Registry
  | .inbound => { r with inbound := r.inbound + 1 }
  | .outbound => { r with outbound := r.outbound + 1 }

/-- Subtraction stops at zero. -/
def decrement (r : Registry) : Direction → Registry
  | .inbound => { r with inbound := r.inbound - 1 }
  | .outbound => { r with outbound := r.outbound - 1 }

/-- `PendingHandshakes::acquire`: one more guard. -/
def acquire (r : Registry) : Except PeerError Registry := do
  ensure (r.pending < MAX_PENDING_HANDSHAKES) .pendingHandshakeLimit
  pure { r with pending := r.pending + 1 }

/-- A guard is dropped. -/
def dropGuard (r : Registry) : Registry := { r with pending := r.pending - 1 }

/-- The registration of a session is dropped. -/
def dropRegistration (r : Registry) (registration : Registration) : Registry :=
  match r.byNonce[registration.remoteNonce]? with
  | some peer =>
    if peer.peerId = registration.peerId then
      ({ r with byNonce := r.byNonce.erase registration.remoteNonce }).decrement peer.direction
    else r
  | none => r

/-- The registered peer that a new connection takes the place of, if there is one. -/
def replacing (preferred direction : Direction) :
    Option RegisteredPeer → Except PeerError (Option RegisteredPeer)
  | some peer =>
    if peer.direction = preferred then .error .duplicatePeer
    else if direction ≠ preferred then .error .duplicatePeer
    else .ok (some peer)
  | none => .ok none

def register {Addr : Type} (config : PeerConfig) (localNonce : BitVec 128) (r : Registry)
    (remoteAddr : Addr) (direction : Direction) (handshake : HandshakeResult) :
    Except PeerError (Registry × EstablishedPeer Addr × Registration × Option PeerId) := do
  let remoteNonce := handshake.remote.instanceNonce
  let preferred ← preferredDirection localNonce remoteNonce
  let replaced ← replacing preferred direction r.byNonce[remoteNonce]?
  ensure (r.count direction < config.limit direction) (.directionLimit direction)
  ensure (¬(replaced = none ∧ config.maxPeers ≤ r.byNonce.size)) .peerLimit
  let peerId := r.nextPeerId
  let nextPeerId ← orElse (checkedAdd r.nextPeerId 1) .peerIdExhausted
  let r := { r with nextPeerId }
  let r := match replaced with
    | some peer => r.decrement peer.direction
    | none => r
  let r := r.increment direction
  let r := { r with byNonce := r.byNonce.insert remoteNonce ⟨peerId, direction⟩ }
  let established :=
    { peerId, remoteAddr, direction
      negotiatedVersion := handshake.negotiated.protocolVersion
      features := handshake.negotiated.features
      remoteBestHeight := handshake.remote.bestHeight
      remoteBestBlockId := handshake.remote.bestBlockId }
  pure (r, established, ⟨peerId, remoteNonce⟩, replaced.map RegisteredPeer.peerId)

end Registry

end Oregon.Peer
