import Oregon.Proofs.PeerRegistry

/-! Two nodes that connect to each other more than once. Each decides alone, in the order in which
the connections reach its registry, which of them it keeps; both keep one that the node
with the lower nonce has opened. -/

namespace Oregon.Peer

open Lib Protocol
open Std (ExtTreeMap)

/-- A connection, and the nonce of the node that opened it. -/
structure Connection where
  id : ℕ
  opener : BitVec 128
  deriving DecidableEq

def Connection.direction (c : Connection) (localNonce : BitVec 128) : Direction :=
  if c.opener = localNonce then .outbound else .inbound

def lowerNonce (a b : BitVec 128) : BitVec 128 := if nonceBytes a < nonceBytes b then a else b

/-- What happens in a registry with the other peers of the node, and with sessions of the remote
node that are not its registered one. -/
inductive Aside (config : PeerConfig) (localNonce remoteNonce : BitVec 128) (r : Registry) :
    Registry → Prop
  | acquire {r' : Registry} (h : r.acquire = .ok r') : Aside config localNonce remoteNonce r r'
  | dropGuard : Aside config localNonce remoteNonce r r.dropGuard
  | register {Addr : Type} (remoteAddr : Addr) (direction : Direction) (handshake : HandshakeResult)
      {r' : Registry} {established : EstablishedPeer Addr} {registration : Registration}
      {replaced : Option PeerId} (hother : handshake.remote.instanceNonce ≠ remoteNonce)
      (h : r.register config localNonce remoteAddr direction handshake =
        .ok (r', established, registration, replaced)) : Aside config localNonce remoteNonce r r'
  | dropSession (registration : Registration)
      (h : registration.remoteNonce = remoteNonce →
        (r.byNonce[remoteNonce]?).map RegisteredPeer.peerId ≠ some registration.peerId) :
      Aside config localNonce remoteNonce r (r.dropRegistration registration)

/-- A node's registry, the connections with the remote node that have been offered to it, and the
sessions of those that it took. -/
structure Endpoint where
  registry : Registry
  offered : List Connection
  sessions : List (Connection × Registration)

structure Room (config : PeerConfig) (r : Registry) (d : Direction) : Prop where
  direction : r.count d < config.limit d
  peers : r.byNonce.size < config.maxPeers
  ids : r.nextPeerId + 1 < 2 ^ 64

/-- The connections reach the registry in any order, with anything else in between. The first
registry does not know the remote node, and has room for the connections that count. -/
inductive Endpoint.Run (Addr : Type) (config : PeerConfig) (localNonce remoteNonce : BitVec 128)
    (connections : List Connection) : Endpoint → Prop
  | start (registry : Registry) (h : registry.byNonce[remoteNonce]? = none) :
      Run Addr config localNonce remoteNonce connections ⟨registry, [], []⟩
  | aside {s : Endpoint} {registry : Registry}
      (run : Run Addr config localNonce remoteNonce connections s)
      (h : Aside config localNonce remoteNonce s.registry registry) :
      Run Addr config localNonce remoteNonce connections { s with registry }
  | take {s : Endpoint} (c : Connection) (remoteAddr : Addr) (handshake : HandshakeResult)
      {registry : Registry} {established : EstablishedPeer Addr} {registration : Registration}
      {replaced : Option PeerId} (run : Run Addr config localNonce remoteNonce connections s)
      (hc : c ∈ connections) (hremote : handshake.remote.instanceNonce = remoteNonce)
      (h : s.registry.register config localNonce remoteAddr (c.direction localNonce) handshake =
        .ok (registry, established, registration, replaced)) :
      Run Addr config localNonce remoteNonce connections
        ⟨registry, c :: s.offered, (c, registration) :: s.sessions⟩
  | refuse {s : Endpoint} (c : Connection) (remoteAddr : Addr) (handshake : HandshakeResult)
      {e : PeerError} (run : Run Addr config localNonce remoteNonce connections s)
      (hc : c ∈ connections) (hremote : handshake.remote.instanceNonce = remoteNonce)
      (hroom : c.opener = lowerNonce localNonce remoteNonce →
        Room config s.registry (c.direction localNonce))
      (h : s.registry.register config localNonce remoteAddr (c.direction localNonce) handshake =
        .error e) :
      Run Addr config localNonce remoteNonce connections { s with offered := c :: s.offered }

def Endpoint.RegisteredOn (s : Endpoint) (remoteNonce : BitVec 128) (c : Connection) : Prop :=
  ∃ registration, (c, registration) ∈ s.sessions ∧
    (s.registry.byNonce[remoteNonce]?).map RegisteredPeer.peerId = some registration.peerId

section Preferred

variable {a b : BitVec 128}

theorem nonceBytes_injective (h : nonceBytes a = nonceBytes b) : a = b :=
  BitVec.eq_of_toNat_eq (leBytes_inj a.isLt b.isLt h)

theorem nonceBytes_gt (hne : a ≠ b) : ¬ nonceBytes a < nonceBytes b ↔ nonceBytes b < nonceBytes a := by
  constructor
  · intro hle
    by_contra hnot
    exact hne (nonceBytes_injective (List.le_antisymm hnot hle))
  · exact fun hlt => List.lt_asymm hlt

theorem lowerNonce_comm (hne : a ≠ b) : lowerNonce a b = lowerNonce b a := by
  rw [lowerNonce, lowerNonce]
  by_cases hlt : nonceBytes a < nonceBytes b
  · rw [if_pos hlt, if_neg ((nonceBytes_gt hne.symm).mpr hlt)]
  · rw [if_neg hlt, if_pos ((nonceBytes_gt hne).mp hlt)]

theorem preferredDirection_eq (hne : a ≠ b) :
    ∃ preferred, preferredDirection a b = .ok preferred ∧ ∀ c : Connection,
      c.opener = a ∨ c.opener = b → (c.direction a = preferred ↔ c.opener = lowerNonce a b) := by
  rw [preferredDirection, ensure_ok hne]
  refine ⟨_, rfl, fun c hc => ?_⟩
  rw [Connection.direction, lowerNonce]
  grind

end Preferred

section Registry

variable {Addr : Type} {config : PeerConfig} {a b : BitVec 128} {r r' : Registry}

theorem Aside.keeps (h : Aside config a b r r') :
    r'.byNonce[b]? = r.byNonce[b]? ∧ r.nextPeerId ≤ r'.nextPeerId := by
  cases h with
  | acquire h =>
    simp only [Registry.acquire, bind_eq_ok, exists_unit, pure_eq_ok] at h
    grind
  | dropGuard => exact ⟨rfl, le_rfl⟩
  | register remoteAddr direction handshake hother h =>
    have hregisters := Registry.register_eq_ok h
    rw [hregisters.byNonce, hregisters.nextPeerId, lookup_insert, if_neg hother]
    exact ⟨rfl, Nat.le_succ _⟩
  | dropSession registration h =>
    rw [Registry.dropRegistration]
    cases hpeer : r.byNonce[registration.remoteNonce]? with
    | none => exact ⟨rfl, le_rfl⟩
    | some peer =>
      dsimp only
      split_ifs with hid
      · have hother : registration.remoteNonce ≠ b := by grind
        simp [lookup_erase, hother]
      · exact ⟨rfl, le_rfl⟩

theorem register_refused {remoteAddr : Addr} {handshake : HandshakeResult} {e : PeerError}
    {preferred : Direction} (hremote : handshake.remote.instanceNonce = b)
    (hpreferred : preferredDirection a b = .ok preferred) (hroom : Room config r preferred)
    (h : r.register config a remoteAddr preferred handshake = .error e) :
    ∃ peer, r.byNonce[b]? = some peer ∧ peer.direction = preferred := by
  by_contra hnone
  have hreplacing : Registry.replacing preferred preferred r.byNonce[b]? = .ok r.byNonce[b]? := by
    refine Registry.replacing_eq_ok.mpr ⟨rfl, fun peer hpeer => ⟨fun hdirection => ?_, rfl⟩⟩
    exact hnone ⟨peer, hpeer, hdirection⟩
  have hids : checkedAdd r.nextPeerId 1 = some (r.nextPeerId + 1) :=
    checkedAdd_eq_some.mpr ⟨rfl, hroom.ids⟩
  have hpeers : ¬ (r.byNonce[b]? = none ∧ config.maxPeers ≤ r.byNonce.size) :=
    fun hfull => absurd hroom.peers (Nat.not_lt.mpr hfull.2)
  simp only [Registry.register, hremote, hpreferred, ok_bind, hreplacing, ensure_ok hroom.direction,
    ensure_ok hpeers, hids, orElse_some] at h
  cases h

end Registry

/-- The node has a session for the registered peer, and once a connection of the lower nonce was
offered the registered peer is on one. -/
structure Endpoint.Settling (a b : BitVec 128) (connections : List Connection) (s : Endpoint) :
    Prop where
  offered : ∀ c ∈ s.offered, c ∈ connections
  fresh : ∀ x ∈ s.sessions, x.2.peerId < s.registry.nextPeerId
  unique : (s.sessions.map fun x => x.2.peerId).Nodup
  entry : ∀ peer : RegisteredPeer, s.registry.byNonce[b]? = some peer →
    ∃ c, (c, ⟨peer.peerId, b⟩) ∈ s.sessions ∧ c ∈ connections ∧ c.direction a = peer.direction
  settled : ∀ c ∈ s.offered, c.opener = lowerNonce a b →
    ∃ peer, s.registry.byNonce[b]? = some peer ∧ peer.direction = c.direction a

namespace Endpoint

variable {Addr : Type} {config : PeerConfig} {a b : BitVec 128} {connections : List Connection}
  {s : Endpoint}

theorem Settling.aside (hs : Settling a b connections s) {registry : Registry}
    (h : Aside config a b s.registry registry) : Settling a b connections { s with registry } := by
  obtain ⟨hpeer, hids⟩ := h.keeps
  refine ⟨hs.offered, fun x hx => (hs.fresh x hx).trans_le hids, hs.unique, ?_, ?_⟩
  · intro peer
    rw [hpeer]
    exact hs.entry peer
  · intro c
    rw [hpeer]
    exact hs.settled c

theorem Settling.take (hs : Settling a b connections s) (hne : a ≠ b)
    (hopeners : ∀ c ∈ connections, c.opener = a ∨ c.opener = b) {c : Connection}
    (hc : c ∈ connections) {registry : Registry} {registration : Registration}
    {replaced : Option PeerId}
    (h : s.registry.Registers config a (c.direction a) b registry registration replaced) :
    Settling a b connections ⟨registry, c :: s.offered, (c, registration) :: s.sessions⟩ := by
  obtain ⟨preferred, hpreferred, hdirection⟩ := preferredDirection_eq hne
  obtain rfl := h.registration
  have hnew : registry.byNonce[b]? = some ⟨s.registry.nextPeerId, c.direction a⟩ := by
    rw [h.byNonce, lookup_insert, if_pos rfl]
  constructor
  case offered => exact List.forall_mem_cons.mpr ⟨hc, hs.offered⟩
  case fresh =>
    rw [h.nextPeerId]
    exact List.forall_mem_cons.mpr ⟨Nat.lt_succ_self _, fun x hx => (hs.fresh x hx).trans (Nat.lt_succ_self _)⟩
  case unique =>
    refine List.nodup_cons.mpr ⟨fun hmem => ?_, hs.unique⟩
    obtain ⟨x, hx, heq⟩ := List.mem_map.mp hmem
    exact absurd (hs.fresh x hx) (heq ▸ lt_irrefl _)
  case entry => simp_all
  case settled =>
    intro c' hc' hlower
    refine ⟨_, hnew, ?_⟩
    rcases List.mem_cons.mp hc' with rfl | hc'
    · rfl
    · -- what was settled before has the preferred direction, and so is not replaced
      obtain ⟨peer, hpeer, hsettled⟩ := hs.settled c' hc' hlower
      obtain ⟨preferred', hpreferred', harbitrated⟩ := h.arbitrated
      grind

theorem Settling.refuse (hs : Settling a b connections s) (hne : a ≠ b)
    (hopeners : ∀ c ∈ connections, c.opener = a ∨ c.opener = b) {c : Connection}
    (hc : c ∈ connections) {remoteAddr : Addr} {handshake : HandshakeResult} {e : PeerError}
    (hremote : handshake.remote.instanceNonce = b)
    (hroom : c.opener = lowerNonce a b → Room config s.registry (c.direction a))
    (h : s.registry.register config a remoteAddr (c.direction a) handshake = .error e) :
    Settling a b connections { s with offered := c :: s.offered } := by
  obtain ⟨preferred, hpreferred, hdirection⟩ := preferredDirection_eq hne
  refine ⟨List.forall_mem_cons.mpr ⟨hc, hs.offered⟩, hs.fresh, hs.unique, hs.entry, ?_⟩
  refine List.forall_mem_cons.mpr ⟨fun hlower => ?_, hs.settled⟩
  grind [register_refused]

theorem Run.settling (hne : a ≠ b) (hopeners : ∀ c ∈ connections, c.opener = a ∨ c.opener = b)
    (run : Run Addr config a b connections s) : Settling a b connections s := by
  induction run with
  | start registry h =>
    refine ⟨by simp, by simp, List.nodup_nil, fun peer hpeer => ?_, by simp⟩
    cases h.symm.trans hpeer
  | aside _ h ih => exact ih.aside h
  | take c remoteAddr handshake _ hc hremote h ih =>
    exact ih.take hne hopeners hc (hremote ▸ Registry.register_eq_ok h)
  | refuse c remoteAddr handshake _ hc hremote hroom h ih =>
    exact ih.refuse hne hopeners hc hremote hroom h

theorem Settling.registered_unique (hs : Settling a b connections s) {c c' : Connection}
    (h : s.RegisteredOn b c) (h' : s.RegisteredOn b c') : c = c' := by
  obtain ⟨registration, hmem, hid⟩ := h
  obtain ⟨registration', hmem', hid'⟩ := h'
  have heq := List.inj_on_of_nodup_map hs.unique hmem hmem' (Option.some.inj (hid.symm.trans hid'))
  exact (Prod.mk.inj heq).1

/-- Registered on a connection that the lower nonce has opened, and on no other. -/
def Resolved (a b : BitVec 128) (connections : List Connection) (s : Endpoint) : Prop :=
  ∃ c ∈ connections, c.opener = lowerNonce a b ∧ s.RegisteredOn b c ∧
    ∀ c', s.RegisteredOn b c' → c' = c

theorem Settling.resolved (hs : Settling a b connections s) (hne : a ≠ b)
    (hopeners : ∀ c ∈ connections, c.opener = a ∨ c.opener = b)
    (hopened : ∃ c ∈ connections, c.opener = lowerNonce a b)
    (hoffered : ∀ c ∈ connections, c.opener = lowerNonce a b → c ∈ s.offered) :
    Resolved a b connections s := by
  obtain ⟨preferred, -, hdirection⟩ := preferredDirection_eq hne
  obtain ⟨c, hc, hlower⟩ := hopened
  obtain ⟨peer, hpeer, hsettled⟩ := hs.settled c (hoffered c hc hlower) hlower
  obtain ⟨c', hsession, hc', hsame⟩ := hs.entry peer hpeer
  have hregistered : s.RegisteredOn b c' := ⟨_, hsession, by rw [hpeer]; rfl⟩
  refine ⟨c', hc', ?_, hregistered, fun c'' h => hs.registered_unique h hregistered⟩
  grind

end Endpoint

/-- Both nodes keep a connection that the lower nonce has opened, and no other; with one
connection each way it is the same. -/
theorem connections_resolve {Addr Addr' : Type} {config config' : PeerConfig} {a b : BitVec 128}
    (hne : a ≠ b) {connections : List Connection}
    (hopeners : ∀ c ∈ connections, c.opener = a ∨ c.opener = b)
    (hopened : ∃ c ∈ connections, c.opener = lowerNonce a b) {s t : Endpoint}
    (hs : s.Run Addr config a b connections) (ht : t.Run Addr' config' b a connections)
    (hoffered : ∀ c ∈ connections, c.opener = lowerNonce a b → c ∈ s.offered ∧ c ∈ t.offered) :
    s.Resolved a b connections ∧ t.Resolved b a connections ∧
      ((∀ c ∈ connections, ∀ c' ∈ connections, c.opener = c'.opener → c = c') →
        ∃ c, s.RegisteredOn b c ∧ t.RegisteredOn a c) := by
  have hlower := lowerNonce_comm hne
  have hs' : s.Resolved a b connections := (hs.settling hne hopeners).resolved hne hopeners hopened
    fun c hc h => (hoffered c hc h).1
  have ht' : t.Resolved b a connections :=
    (ht.settling hne.symm fun c hc => (hopeners c hc).symm).resolved hne.symm
      (fun c hc => (hopeners c hc).symm) (hlower ▸ hopened)
      fun c hc h => (hoffered c hc (h.trans hlower.symm)).2
  refine ⟨hs', ht', fun hone => ?_⟩
  obtain ⟨c, hc, hopener, hregistered, -⟩ := hs'
  obtain ⟨c', hc', hopener', hregistered', -⟩ := ht'
  obtain rfl := hone c hc c' hc' (hopener.trans (hlower.trans hopener'.symm))
  exact ⟨c, hregistered, hregistered'⟩

/-- One connection each way, which reach both nodes in the opposite order: the first node replaces
the connection that it took, the second refuses the later one. -/
theorem connections_resolve_two : ∃ s t : Endpoint,
    s.Run Unit .default 1 2 [⟨0, 1⟩, ⟨1, 2⟩] ∧ t.Run Unit .default 2 1 [⟨0, 1⟩, ⟨1, 2⟩] ∧
      ∃ c, s.RegisteredOn 2 c ∧ t.RegisteredOn 1 c := by
  let remote (nonce : BitVec 128) : HandshakeResult :=
    ⟨⟨1, 1, 0, nonce, ⟨7⟩, ⟨0⟩, 0, 0⟩, ⟨1, ⟨7⟩⟩⟩
  have hs₁ : Endpoint.Run Unit .default 1 2 [⟨0, 1⟩, ⟨1, 2⟩] _ :=
    .take ⟨1, 2⟩ () (remote 2) (.start .new rfl) (by decide) rfl rfl
  have hs : Endpoint.Run Unit .default 1 2 [⟨0, 1⟩, ⟨1, 2⟩] _ :=
    .take ⟨0, 1⟩ () (remote 2) hs₁ (by decide) rfl rfl
  have ht₁ : Endpoint.Run Unit .default 2 1 [⟨0, 1⟩, ⟨1, 2⟩] _ :=
    .take ⟨0, 1⟩ () (remote 1) (.start .new rfl) (by decide) rfl rfl
  have ht : Endpoint.Run Unit .default 2 1 [⟨0, 1⟩, ⟨1, 2⟩] _ :=
    .refuse ⟨1, 2⟩ () (remote 1) ht₁ (by decide) rfl (fun h => absurd h (by decide)) rfl
  obtain ⟨-, -, hsame⟩ := connections_resolve (by decide) (by decide) (by decide) hs ht (by decide)
  exact ⟨_, _, hs, ht, hsame (by decide)⟩

end Oregon.Peer
