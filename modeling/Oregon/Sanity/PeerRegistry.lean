import Oregon.Lib.Maps
import Oregon.Sanity.Utxo
import Oregon.Spec.PeerRegistry

/-! What a registration changes in the registry, and the counters of the registry against the
peers that are registered. -/

namespace Oregon.Peer

open Lib Protocol
open Std (ExtTreeMap)

theorem PeerConfig.new_eq_ok {maxPeers maxOutbound maxInbound : ℕ} {config : PeerConfig}
    (h : PeerConfig.new maxPeers maxOutbound maxInbound = .ok config) :
    config.maxOutbound + config.maxInbound ≤ config.maxPeers := by
  simp only [new, bind_eq_ok, ensure_eq_ok, exists_unit, orElse_eq_ok, checkedAdd_eq_some,
    pure_eq_ok] at h
  grind

namespace Registry

variable (r : Registry) (d d' : Direction)

/-- How many peers are registered with a direction. -/
def registered (r : Registry) (d : Direction) : ℕ :=
  mapSum (fun peer => if peer.direction = d then 1 else 0) r.byNonce

theorem registered_eq_countP :
    r.registered d = r.byNonce.toList.countP fun e => e.2.direction = d := by
  rw [registered, mapSum]
  induction r.byNonce.toList with
  | nil => rfl
  | cons e l ih => by_cases he : e.2.direction = d <;> simp [he, ih, add_comm]

/-- What a registered peer counts for in a direction. -/
def weight (peer : Option RegisteredPeer) (d : Direction) : ℕ :=
  peer.elim 0 fun p => if p.direction = d then 1 else 0

@[simp] theorem count_decrement :
    (r.decrement d).count d' = r.count d' - if d = d' then 1 else 0 := by
  cases d <;> cases d' <;> rfl

@[simp] theorem byNonce_increment : (r.increment d).byNonce = r.byNonce := by
  cases d <;> rfl

@[simp] theorem byNonce_decrement : (r.decrement d).byNonce = r.byNonce := by
  cases d <;> rfl

@[simp] theorem nextPeerId_increment : (r.increment d).nextPeerId = r.nextPeerId := by
  cases d <;> rfl

@[simp] theorem nextPeerId_decrement : (r.decrement d).nextPeerId = r.nextPeerId := by
  cases d <;> rfl

@[simp] theorem pending_increment : (r.increment d).pending = r.pending := by
  cases d <;> rfl

@[simp] theorem pending_decrement : (r.decrement d).pending = r.pending := by
  cases d <;> rfl

/-- A registered peer is counted. -/
theorem weight_le (nonce : BitVec 128) (d : Direction) : weight r.byNonce[nonce]? d ≤ r.registered d := by
  cases hpeer : r.byNonce[nonce]? with
  | none => exact Nat.zero_le _
  | some peer =>
    rw [registered, ← mapSum_erase _ hpeer]
    exact Nat.le_add_left ..

variable {r : Registry}

/-- What a registration does, and when it is possible. -/
structure Registers (config : PeerConfig) (localNonce : BitVec 128) (r : Registry)
    (direction : Direction) (nonce : BitVec 128) (r' : Registry) (registration : Registration)
    (replaced : Option PeerId) : Prop where
  arbitrated : ∃ preferred, preferredDirection localNonce nonce = .ok preferred ∧
    ∀ peer, r.byNonce[nonce]? = some peer → peer.direction ≠ preferred ∧ direction = preferred
  room : r.count direction < config.limit direction
  registration : registration = ⟨r.nextPeerId, nonce⟩
  replaced : replaced = (r.byNonce[nonce]?).map RegisteredPeer.peerId
  nextPeerId : r'.nextPeerId = r.nextPeerId + 1
  byNonce : r'.byNonce = r.byNonce.insert nonce ⟨r.nextPeerId, direction⟩
  pending : r'.pending = r.pending
  count : ∀ d, r'.count d =
    r.count d - weight r.byNonce[nonce]? d + if direction = d then 1 else 0

theorem replacing_eq_ok {preferred direction : Direction} {existing replaced : Option RegisteredPeer} :
    replacing preferred direction existing = .ok replaced ↔ replaced = existing ∧
      ∀ peer, existing = some peer → peer.direction ≠ preferred ∧ direction = preferred := by
  cases existing with
  | none => simp [replacing, eq_comm]
  | some peer =>
    simp only [replacing]
    split_ifs with hpeer hdirection <;> simp_all [eq_comm]

theorem register_eq_ok {Addr : Type} {config : PeerConfig} {localNonce : BitVec 128}
    {remoteAddr : Addr} {direction : Direction} {handshake : HandshakeResult} {r' : Registry}
    {established : EstablishedPeer Addr} {registration : Registration} {replaced : Option PeerId}
    (h : r.register config localNonce remoteAddr direction handshake =
      .ok (r', established, registration, replaced)) :
    Registers config localNonce r direction handshake.remote.instanceNonce r' registration
      replaced := by
  simp only [register, bind_eq_ok, ensure_eq_ok, exists_unit, orElse_eq_ok, checkedAdd_eq_some,
    pure_eq_ok, replacing_eq_ok, Prod.mk.injEq] at h
  obtain ⟨preferred, hpreferred, existing, ⟨rfl, harbitrated⟩, hroom, -, next, ⟨rfl, -⟩, rfl, -,
    rfl, rfl⟩ := h
  refine ⟨⟨preferred, hpreferred, harbitrated⟩, hroom, rfl, rfl, ?_, ?_, ?_, ?_⟩
  · cases r.byNonce[handshake.remote.instanceNonce]? <;> simp
  · cases r.byNonce[handshake.remote.instanceNonce]? <;> simp
  · cases r.byNonce[handshake.remote.instanceNonce]? <;> simp
  · intro d
    rcases r.byNonce[handshake.remote.instanceNonce]? with _ | ⟨id, _ | _⟩ <;>
      cases direction <;> cases d <;> rfl

end Registry

end Oregon.Peer
