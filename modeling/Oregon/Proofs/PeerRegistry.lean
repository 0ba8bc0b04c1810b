import Oregon.Sanity.PeerRegistry
import Mathlib.Logic.Relation

/-! The registry of peers under every interleaving: guards and sessions come and go, sessions
of replaced peers outlive their registration, and still the counters are the numbers of
registered peers, within their limits. -/

namespace Oregon.Peer

open Lib Protocol
open Std (ExtTreeMap)

/-- A registry with the guards and sessions that refer to it, the ids it has given out and
the ids it has reported as replaced. -/
structure PeerNode where
  registry : Registry
  guards : ℕ
  sessions : List Registration
  issued : List PeerId
  replaced : List PeerId

namespace PeerNode

def start : PeerNode where
  registry := .new
  guards := 0
  sessions := []
  issued := []
  replaced := []

/-- A session whose registration is the current one for its nonce. -/
def registered (s : PeerNode) (r : Registration) : Prop :=
  (s.registry.byNonce[r.remoteNonce]?).map RegisteredPeer.peerId = some r.peerId

/-- A connection attempt takes a guard, its handshake ends in a registration or not, and the
guard is dropped; a session is dropped at any time after its registration. -/
inductive Step (Addr : Type) (config : PeerConfig) (localNonce : BitVec 128) (s : PeerNode) :
    PeerNode → Prop
  | acquire {registry : Registry} (h : s.registry.acquire = .ok registry) :
      Step Addr config localNonce s { s with registry, guards := s.guards + 1 }
  | turnAway {e : PeerError} (h : s.registry.acquire = .error e) : Step Addr config localNonce s s
  | dropGuard (h : 0 < s.guards) :
      Step Addr config localNonce s
        { s with registry := s.registry.dropGuard, guards := s.guards - 1 }
  | register (remoteAddr : Addr) (direction : Direction) (handshake : HandshakeResult)
      {registry : Registry} {established : EstablishedPeer Addr} {registration : Registration}
      {replaced : Option PeerId} (hguard : 0 < s.guards)
      (h : s.registry.register config localNonce remoteAddr direction handshake =
        .ok (registry, established, registration, replaced)) :
      Step Addr config localNonce s
        { s with
          registry
          sessions := registration :: s.sessions
          issued := registration.peerId :: s.issued
          replaced := replaced.toList ++ s.replaced }
  | refuse (remoteAddr : Addr) (direction : Direction) (handshake : HandshakeResult)
      {e : PeerError} (hguard : 0 < s.guards)
      (h : s.registry.register config localNonce remoteAddr direction handshake = .error e) :
      Step Addr config localNonce s s
  | dropSession (registration : Registration) (h : registration ∈ s.sessions) :
      Step Addr config localNonce s
        { s with
          registry := s.registry.dropRegistration registration
          sessions := s.sessions.erase registration }

def Reachable (Addr : Type) (config : PeerConfig) (localNonce : BitVec 128) : PeerNode → Prop :=
  Relation.ReflTransGen (Step Addr config localNonce) start

/-- The counters are right and the ids are fresh; what is registered belongs to a session, and
no replaced peer is registered. -/
structure Sound (config : PeerConfig) (s : PeerNode) : Prop where
  count : ∀ d, s.registry.count d = s.registry.registered d
  limit : ∀ d, s.registry.count d ≤ config.limit d
  pending : s.registry.pending = s.guards
  guards : s.guards ≤ MAX_PENDING_HANDSHAKES
  issued : s.issued.Nodup ∧ ∀ id ∈ s.issued, id < s.registry.nextPeerId
  sessions : (s.sessions.map Registration.peerId).Nodup ∧ ∀ r ∈ s.sessions, r.peerId ∈ s.issued
  entry : ∀ (nonce : BitVec 128) (peer : RegisteredPeer),
    s.registry.byNonce[nonce]? = some peer → ⟨peer.peerId, nonce⟩ ∈ s.sessions
  gone : ∀ id ∈ s.replaced, id ∈ s.issued ∧
    ∀ (nonce : BitVec 128) (peer : RegisteredPeer),
      s.registry.byNonce[nonce]? = some peer → peer.peerId ≠ id

variable {Addr : Type} {config : PeerConfig} {localNonce : BitVec 128} {s s' : PeerNode}

theorem sound_start : Sound config start := by
  constructor <;> simp [start, Registry.new, Registry.registered, Registry.count]
  · rintro (_ | _) <;> rfl
  · rintro (_ | _) <;> exact Nat.zero_le _

theorem Sound.nonce_unique (hs : Sound config s) {nonce nonce' : BitVec 128}
    {peer peer' : RegisteredPeer} (h : s.registry.byNonce[nonce]? = some peer)
    (h' : s.registry.byNonce[nonce']? = some peer') (hid : peer.peerId = peer'.peerId) :
    nonce = nonce' := by
  have heq := List.inj_on_of_nodup_map hs.sessions.1 (hs.entry _ _ h) (hs.entry _ _ h') hid
  exact (Registration.mk.inj heq).2

theorem Sound.acquire (hs : Sound config s) {registry : Registry}
    (h : s.registry.acquire = .ok registry) :
    Sound config { s with registry, guards := s.guards + 1 } := by
  simp only [Registry.acquire, bind_eq_ok, ensure_eq_ok, exists_unit, pure_eq_ok] at h
  obtain ⟨hroom, rfl⟩ := h
  have hpending := hs.pending
  exact { hs with
    pending := congrArg (· + 1) hpending
    guards := hpending ▸ hroom }

theorem Sound.dropGuard (hs : Sound config s) :
    Sound config { s with registry := s.registry.dropGuard, guards := s.guards - 1 } :=
  { hs with
    count := fun d => (by cases d <;> rfl : _ = s.registry.count d).trans (hs.count d)
    limit := fun d => (by cases d <;> rfl : _ = s.registry.count d).trans_le (hs.limit d)
    pending := congrArg (· - 1) hs.pending
    guards := (Nat.sub_le ..).trans hs.guards }

theorem Sound.register (hs : Sound config s) {direction : Direction} {nonce : BitVec 128}
    {registry : Registry} {registration : Registration} {replaced : Option PeerId}
    (h : s.registry.Registers config localNonce direction nonce registry registration replaced) :
    Sound config { s with
      registry
      sessions := registration :: s.sessions
      issued := registration.peerId :: s.issued
      replaced := replaced.toList ++ s.replaced } := by
  obtain rfl := h.registration
  have hfresh : s.registry.nextPeerId ∉ s.issued := fun hmem =>
    absurd (hs.issued.2 _ hmem) (lt_irrefl _)
  have hcount : ∀ d, registry.count d = registry.registered d ∧
      registry.count d ≤ s.registry.count d + if direction = d then 1 else 0 := by
    intro d
    have hreplace : mapSum (fun peer : RegisteredPeer => if peer.direction = d then 1 else 0)
        (s.registry.byNonce.insert nonce ⟨s.registry.nextPeerId, direction⟩) +
          Registry.weight s.registry.byNonce[nonce]? d =
        (if direction = d then 1 else 0) + s.registry.registered d := mapSum_replace _ _ _ _
    have hbefore := hs.count d
    have hafter := h.count d
    have hle := s.registry.weight_le nonce d
    rw [Registry.registered, h.byNonce]
    omega
  have hlookup : ∀ nonce' peer, registry.byNonce[nonce']? = some peer →
      (nonce = nonce' ∧ peer = ⟨s.registry.nextPeerId, direction⟩) ∨
        (nonce ≠ nonce' ∧ s.registry.byNonce[nonce']? = some peer) := by
    intro nonce' peer hpeer
    rw [h.byNonce, lookup_insert] at hpeer
    grind
  constructor
  case count => exact fun d => (hcount d).1
  case limit =>
    intro d
    have hle := (hcount d).2
    have hroom := h.room
    have hlimit := hs.limit d
    grind
  case pending => exact h.pending.trans hs.pending
  case guards => exact hs.guards
  case issued =>
    refine ⟨List.nodup_cons.mpr ⟨hfresh, hs.issued.1⟩, ?_⟩
    simp only [List.forall_mem_cons, h.nextPeerId]
    exact ⟨Nat.lt_succ_self _, fun id hid => Nat.lt_succ_of_lt (hs.issued.2 id hid)⟩
  case sessions =>
    refine ⟨List.nodup_cons.mpr ⟨fun hmem => ?_, hs.sessions.1⟩, ?_⟩
    · obtain ⟨r, hr, hid⟩ := List.mem_map.mp hmem
      have hissued := hs.sessions.2 r hr
      grind
    · simp only [List.forall_mem_cons]
      exact ⟨List.mem_cons_self, fun r hr => List.mem_cons_of_mem _ (hs.sessions.2 r hr)⟩
  case entry =>
    intro nonce' peer hpeer
    obtain ⟨rfl, rfl⟩ | ⟨-, hpeer⟩ := hlookup nonce' peer hpeer
    · exact List.mem_cons_self
    · exact List.mem_cons_of_mem _ (hs.entry nonce' peer hpeer)
  case gone =>
    intro id hid
    rw [h.replaced, List.mem_append, Option.mem_toList, Option.map_eq_some_iff] at hid
    -- The id of the peer that is replaced, or of one that was replaced before.
    have hold : id ∈ s.issued ∧ ∀ nonce' peer, nonce ≠ nonce' →
        s.registry.byNonce[nonce']? = some peer → peer.peerId ≠ id := by
      obtain ⟨peer, hpeer, rfl⟩ | hid := hid
      · refine ⟨hs.sessions.2 _ (hs.entry nonce peer hpeer), fun nonce' peer' hne hpeer' heq => ?_⟩
        exact hne (hs.nonce_unique hpeer hpeer' heq.symm)
      · exact ⟨(hs.gone id hid).1, fun nonce' peer _ => (hs.gone id hid).2 nonce' peer⟩
    grind

/-- A session that is dropped takes its registration with it, if it still has one. -/
theorem dropRegistration_cases (r : Registry) (registration : Registration) :
    (∃ peer, r.byNonce[registration.remoteNonce]? = some peer ∧
        peer.peerId = registration.peerId ∧ r.dropRegistration registration =
          ({ r with byNonce := r.byNonce.erase registration.remoteNonce }).decrement
            peer.direction) ∨
      ((∀ peer, r.byNonce[registration.remoteNonce]? = some peer →
        peer.peerId ≠ registration.peerId) ∧ r.dropRegistration registration = r) := by
  rw [Registry.dropRegistration]
  cases hpeer : r.byNonce[registration.remoteNonce]? with
  | none => exact .inr ⟨by simp, rfl⟩
  | some peer => grind

theorem Sound.dropSession (hs : Sound config s) {registration : Registration}
    (hmem : registration ∈ s.sessions) :
    Sound config { s with
      registry := s.registry.dropRegistration registration
      sessions := s.sessions.erase registration } := by
  have hnodup : s.sessions.Nodup := hs.sessions.1.of_map
  have hsub : (s.sessions.erase registration).Sublist s.sessions := List.erase_sublist
  have hsessions : ((s.sessions.erase registration).map Registration.peerId).Nodup ∧
      ∀ r ∈ s.sessions.erase registration, r.peerId ∈ s.issued :=
    ⟨hs.sessions.1.sublist (hsub.map _), fun r hr => hs.sessions.2 r (hsub.mem hr)⟩
  have hstays : ∀ nonce peer, s.registry.byNonce[nonce]? = some peer →
      (⟨peer.peerId, nonce⟩ : Registration) ≠ registration →
      ⟨peer.peerId, nonce⟩ ∈ s.sessions.erase registration := fun nonce peer hpeer hne =>
    hnodup.mem_erase_iff.mpr ⟨hne, hs.entry nonce peer hpeer⟩
  obtain ⟨peer, hpeer, hid, hdrop⟩ | ⟨hother, hdrop⟩ :=
    dropRegistration_cases s.registry registration
  · rw [hdrop]
    have hlookup : ∀ nonce' peer', (s.registry.byNonce.erase registration.remoteNonce)[nonce']? =
        some peer' → registration.remoteNonce ≠ nonce' ∧
          s.registry.byNonce[nonce']? = some peer' := by
      grind
    have hcount : ∀ d, (({ s.registry with
        byNonce := s.registry.byNonce.erase registration.remoteNonce } : Registry).decrement
          peer.direction).count d = s.registry.count d - if peer.direction = d then 1 else 0 := by
      intro d
      rw [Registry.count_decrement]
      cases d <;> rfl
    constructor
    case count =>
      intro d
      have herase : mapSum (fun p : RegisteredPeer => if p.direction = d then 1 else 0)
          (s.registry.byNonce.erase registration.remoteNonce) +
            (if peer.direction = d then 1 else 0) = s.registry.registered d := mapSum_erase _ hpeer
      rw [hcount, hs.count d, ← herase, Registry.registered, Registry.byNonce_decrement]
      exact Nat.add_sub_cancel ..
    case limit =>
      intro d
      rw [hcount]
      exact (Nat.sub_le ..).trans (hs.limit d)
    case pending => exact (Registry.pending_decrement ..).trans hs.pending
    case guards => exact hs.guards
    case issued => rw [Registry.nextPeerId_decrement]; exact hs.issued
    case sessions => exact hsessions
    case entry =>
      intro nonce' peer' hpeer'
      rw [Registry.byNonce_decrement] at hpeer'
      grind
    case gone =>
      intro id hmem'
      refine ⟨(hs.gone id hmem').1, fun nonce' peer' hpeer' => ?_⟩
      rw [Registry.byNonce_decrement] at hpeer'
      exact (hs.gone id hmem').2 nonce' peer' (hlookup nonce' peer' hpeer').2
  · rw [hdrop]
    refine { hs with
      sessions := hsessions
      entry := fun nonce peer hpeer => hstays nonce peer hpeer ?_ }
    rintro rfl
    exact hother peer hpeer rfl

theorem Sound.step (hs : Sound config s) (h : Step Addr config localNonce s s') :
    Sound config s' := by
  cases h with
  | acquire h => exact hs.acquire h
  | turnAway => exact hs
  | dropGuard => exact hs.dropGuard
  | register remoteAddr direction handshake hguard h => exact hs.register (Registry.register_eq_ok h)
  | refuse => exact hs
  | dropSession registration h => exact hs.dropSession h

theorem Reachable.sound (h : Reachable Addr config localNonce s) : Sound config s := by
  induction h with
  | refl => exact sound_start
  | tail _ hstep ih => exact ih.step hstep

theorem registered_add (r : Registry) :
    r.registered .inbound + r.registered .outbound = r.byNonce.size := by
  rw [Registry.registered, Registry.registered, mapSum, mapSum, ← mapSum_one, mapSum,
    ← List.sum_map_add]
  refine congrArg List.sum (List.map_congr_left fun e _ => ?_)
  rcases e with ⟨nonce, id, _ | _⟩ <;> rfl

theorem Sound.size_le (hs : Sound config s)
    (hconfig : config.maxOutbound + config.maxInbound ≤ config.maxPeers) :
    s.registry.byNonce.size ≤ config.maxPeers := by
  have hinbound : s.registry.count .inbound ≤ config.maxInbound := hs.limit .inbound
  have houtbound : s.registry.count .outbound ≤ config.maxOutbound := hs.limit .outbound
  have hsize := registered_add s.registry
  rw [← hs.count, ← hs.count] at hsize
  omega

theorem Sound.size_lt (hs : Sound config s)
    (hconfig : config.maxOutbound + config.maxInbound ≤ config.maxPeers) {d : Direction}
    (hroom : s.registry.count d < config.limit d) : s.registry.byNonce.size < config.maxPeers := by
  have hinbound : s.registry.count .inbound ≤ config.maxInbound := hs.limit .inbound
  have houtbound : s.registry.count .outbound ≤ config.maxOutbound := hs.limit .outbound
  have hsize := registered_add s.registry
  rw [← hs.count, ← hs.count] at hsize
  cases d with
  | inbound =>
    have hlt : s.registry.count .inbound < config.maxInbound := hroom
    omega
  | outbound =>
    have hlt : s.registry.count .outbound < config.maxOutbound := hroom
    omega

theorem Sound.not_peerLimit (hs : Sound config s)
    (hconfig : config.maxOutbound + config.maxInbound ≤ config.maxPeers) (remoteAddr : Addr)
    (direction : Direction) (handshake : HandshakeResult) :
    s.registry.register config localNonce remoteAddr direction handshake ≠ .error .peerLimit := by
  intro h
  simp only [Registry.register, bind_eq_error, ensure_eq_error, ensure_eq_ok, exists_unit,
    orElse_eq_error, preferredDirection] at h
  obtain h | ⟨preferred, -, h | ⟨replaced, -, h | ⟨hroom, h | ⟨-, h⟩⟩⟩⟩ := h
  · simp [pure, Except.pure] at h
  · cases hpeer : s.registry.byNonce[handshake.remote.instanceNonce]? with
    | none => simp [hpeer, Registry.replacing] at h
    | some peer => grind [Registry.replacing]
  · exact absurd h.2 (by simp)
  · exact h.1 fun hfull => absurd (hs.size_lt hconfig hroom) (Nat.not_lt_of_le hfull.2)
  · simp [pure, Except.pure] at h

end PeerNode

/-- What holds of a node at every point. -/
structure RegistryKept (Addr : Type) (config : PeerConfig) (localNonce : BitVec 128)
    (s : PeerNode) : Prop where
  inbound : s.registry.inbound =
    s.registry.byNonce.toList.countP fun e => e.2.direction = .inbound
  outbound : s.registry.outbound =
    s.registry.byNonce.toList.countP fun e => e.2.direction = .outbound
  limits : s.registry.inbound ≤ config.maxInbound ∧ s.registry.outbound ≤ config.maxOutbound
  /-- Of the sessions that are registered there is one for a nonce. -/
  one : ∀ r ∈ s.sessions, ∀ r' ∈ s.sessions, s.registered r → s.registered r' →
    r.remoteNonce = r'.remoteNonce → r = r'
  total : s.registry.byNonce.size ≤ config.maxPeers
  peerLimit : ∀ (remoteAddr : Addr) direction handshake,
    s.registry.register config localNonce remoteAddr direction handshake ≠ .error .peerLimit
  pending : s.registry.pending = s.guards ∧ s.guards ≤ 32
  /-- No id was given out twice. -/
  fresh : s.issued.Nodup
  /-- A session of a replaced peer leaves no trace when it is dropped. -/
  replaced : ∀ r ∈ s.sessions, r.peerId ∈ s.replaced → s.registry.dropRegistration r = s.registry

theorem registry_kept {Addr : Type} {maxPeers maxOutbound maxInbound : ℕ} {config : PeerConfig}
    (hconfig : PeerConfig.new maxPeers maxOutbound maxInbound = .ok config)
    {localNonce : BitVec 128} {s : PeerNode} (h : PeerNode.Reachable Addr config localNonce s) :
    RegistryKept Addr config localNonce s := by
  have hs := h.sound
  have hlimits := PeerConfig.new_eq_ok hconfig
  constructor
  case inbound => exact (hs.count .inbound).trans (s.registry.registered_eq_countP .inbound)
  case outbound => exact (hs.count .outbound).trans (s.registry.registered_eq_countP .outbound)
  case limits => exact ⟨hs.limit .inbound, hs.limit .outbound⟩
  case one =>
    intro r hr r' hr' hregistered hregistered' hnonce
    have hid : some r.peerId = some r'.peerId := by rw [← hregistered, ← hregistered', hnonce]
    exact List.inj_on_of_nodup_map hs.sessions.1 hr hr' (Option.some.inj hid)
  case total => exact hs.size_le hlimits
  case peerLimit => exact hs.not_peerLimit hlimits
  case pending => exact ⟨hs.pending, hs.guards⟩
  case fresh => exact hs.issued.1
  case replaced =>
    intro r _ hreplaced
    obtain ⟨peer, hpeer, hid, -⟩ | ⟨-, hdrop⟩ := PeerNode.dropRegistration_cases s.registry r
    · exact absurd hid ((hs.gone _ hreplaced).2 _ _ hpeer)
    · exact hdrop

/-- A peer connects twice; the second connection replaces the first, whose session is then
dropped. -/
theorem registry_kept_replaced :
    ∃ s t, PeerNode.Reachable Unit .default 1 s ∧ s.sessions = [⟨2, 2⟩, ⟨1, 2⟩] ∧
      s.replaced = [1] ∧ PeerNode.Reachable Unit .default 1 t ∧ t.sessions = [⟨2, 2⟩] ∧
      t.registry = s.registry ∧ t.registry.outbound = 1 ∧ t.registry.inbound = 0 ∧
      RegistryKept Unit .default 1 t := by
  let handshake : HandshakeResult := ⟨⟨1, 1, 0, 2, ⟨7⟩, ⟨0⟩, 0, 0⟩, ⟨1, ⟨7⟩⟩⟩
  have hacquire : PeerNode.Reachable Unit .default 1 _ :=
    .tail .refl (PeerNode.Step.acquire (s := .start) rfl)
  have hfirst : PeerNode.Reachable Unit .default 1 _ :=
    hacquire.tail (.register () .inbound handshake (by decide) rfl)
  have hsecond : PeerNode.Reachable Unit .default 1 _ :=
    hfirst.tail (.register () .outbound handshake (by decide) rfl)
  have hdropped : PeerNode.Reachable Unit .default 1 _ :=
    hsecond.tail (.dropSession ⟨1, 2⟩ (.tail _ (.head _)))
  have hconfig : PeerConfig.new 64 16 48 = .ok .default := rfl
  exact ⟨_, _, hsecond, rfl, rfl, hdropped, rfl, rfl, rfl, rfl, registry_kept hconfig hdropped⟩

end Oregon.Peer
