import Oregon.Lib.Result
import Oregon.Spec.Handshake
import Mathlib.Logic.Relation

/-! Two handshake machines joined by a channel in each direction. Either side takes the next
message of its channel, or adds a ping or a pong to the other side's; it does neither once it
has failed or is established. -/

namespace Oregon

open Lib

namespace Protocol

/-- Two announcements that can be negotiated. -/
structure Compatible (a b : Hello) : Prop where
  range : a.minProtocolVersion ≠ 0 ∧ a.minProtocolVersion ≤ a.maxProtocolVersion
  range' : b.minProtocolVersion ≠ 0 ∧ b.minProtocolVersion ≤ b.maxProtocolVersion
  offered : a.offeredFeatures.contains a.requiredFeatures
  offered' : b.offeredFeatures.contains b.requiredFeatures
  known : FeatureSet.KNOWN.contains a.requiredFeatures
  known' : FeatureSet.KNOWN.contains b.requiredFeatures
  common : ∃ v, a.minProtocolVersion ≤ v ∧ v ≤ a.maxProtocolVersion ∧
    b.minProtocolVersion ≤ v ∧ v ≤ b.maxProtocolVersion
  supported : b.offeredFeatures.contains a.requiredFeatures
  supported' : a.offeredFeatures.contains b.requiredFeatures

/-- What is negotiated between compatible announcements. -/
def agreed (a b : Hello) : Negotiated where
  protocolVersion := min a.maxProtocolVersion b.maxProtocolVersion
  features := (a.offeredFeatures.bitand b.offeredFeatures).bitand .KNOWN

theorem Compatible.symm {a b : Hello} (h : Compatible a b) : Compatible b a where
  range := h.range'
  range' := h.range
  offered := h.offered'
  offered' := h.offered
  known := h.known'
  known' := h.known
  common := h.common.imp fun _ h => ⟨h.2.2.1, h.2.2.2, h.1, h.2.1⟩
  supported := h.supported'
  supported' := h.supported

theorem agreed_comm (a b : Hello) : agreed a b = agreed b a := by
  have hmin : min a.maxProtocolVersion b.maxProtocolVersion =
      min b.maxProtocolVersion a.maxProtocolVersion :=
    Std.le_antisymm (Std.le_min_iff.mpr ⟨Std.min_le_right, Std.min_le_left⟩)
      (Std.le_min_iff.mpr ⟨Std.min_le_right, Std.min_le_left⟩)
  simp [agreed, FeatureSet.bitand, hmin, UInt64.and_comm]

theorem and_not_eq_zero (x y : UInt64) : x &&& ~~~y = 0 ↔ y &&& x = x := by
  rw [← UInt64.toBitVec_inj, ← UInt64.toBitVec_inj, BitVec.eq_of_getElem_eq_iff,
    BitVec.eq_of_getElem_eq_iff]
  simp

theorem or_eq_zero (x y : UInt64) : x ||| y = 0 ↔ x = 0 ∧ y = 0 := by
  simp

theorem contains_iff (s other : FeatureSet) :
    s.contains other ↔ other.bits &&& ~~~s.bits = 0 := by
  rw [and_not_eq_zero, FeatureSet.contains, decide_eq_true_iff]

theorem unsupportedFeatures_eq_zero (a b : Hello) : unsupportedFeatures a b = 0 ↔
    b.offeredFeatures.contains a.requiredFeatures ∧ a.offeredFeatures.contains b.requiredFeatures ∧
      FeatureSet.KNOWN.contains a.requiredFeatures ∧
      FeatureSet.KNOWN.contains b.requiredFeatures := by
  simp only [unsupportedFeatures, or_eq_zero, contains_iff, and_assoc]

theorem contains_bitand {s t other : FeatureSet} (hs : s.contains other) (ht : t.contains other) :
    (s.bitand t).contains other := by
  have hs' : s.bits &&& other.bits = other.bits := of_decide_eq_true hs
  have ht' : t.bits &&& other.bits = other.bits := of_decide_eq_true ht
  refine decide_eq_true ?_
  change s.bits &&& t.bits &&& other.bits = other.bits
  rw [UInt64.and_assoc, ht', hs']

/-- The negotiated version lies in both ranges, and what either side requires is enabled. -/
theorem Compatible.agreed_spec {a b : Hello} (h : Compatible a b) :
    (a.minProtocolVersion ≤ (agreed a b).protocolVersion ∧
      (agreed a b).protocolVersion ≤ a.maxProtocolVersion) ∧
    (b.minProtocolVersion ≤ (agreed a b).protocolVersion ∧
      (agreed a b).protocolVersion ≤ b.maxProtocolVersion) ∧
    (agreed a b).features.contains a.requiredFeatures ∧
    (agreed a b).features.contains b.requiredFeatures := by
  obtain ⟨v, hmin, hmax, hmin', hmax'⟩ := h.common
  have hv : v ≤ min a.maxProtocolVersion b.maxProtocolVersion := Std.le_min_iff.mpr ⟨hmax, hmax'⟩
  exact ⟨⟨Std.le_trans hmin hv, Std.min_le_left⟩, ⟨Std.le_trans hmin' hv, Std.min_le_right⟩,
    contains_bitand (contains_bitand h.offered h.supported) h.known,
    contains_bitand (contains_bitand h.supported' h.offered') h.known'⟩

theorem max_le_min_iff (a b c d : UInt16) :
    max a b ≤ min c d ↔ ∃ v, a ≤ v ∧ v ≤ c ∧ b ≤ v ∧ v ≤ d := by
  have hmax : max a b = if a ≤ b then b else a := rfl
  rw [Std.le_min_iff]
  constructor
  · grind
  · grind

/-- Negotiation gives a result exactly for compatible announcements. -/
theorem negotiate_eq_ok {a b : Hello} {n : Negotiated} :
    negotiate a b = .ok n ↔ Compatible a b ∧ n = agreed a b := by
  have hnot : ∀ h : Hello, ¬(h.minProtocolVersion = 0 ∨
      h.maxProtocolVersion < h.minProtocolVersion) ↔
        h.minProtocolVersion ≠ 0 ∧ h.minProtocolVersion ≤ h.maxProtocolVersion := by
    intro h
    rw [not_or, Std.not_lt]
  simp only [negotiate, validateRange, validateRequiredSubset, bind_eq_ok, ensure_eq_ok,
    exists_unit, pure_eq_ok, hnot, ← contains_iff, max_le_min_iff, unsupportedFeatures_eq_zero]
  constructor
  · rintro ⟨hrange, hrange', hoffered, hoffered', hcommon, hfeatures, rfl⟩
    exact ⟨⟨hrange, hrange', hoffered, hoffered', hfeatures.2.2.1, hfeatures.2.2.2, hcommon,
      hfeatures.1, hfeatures.2.1⟩, rfl⟩
  · rintro ⟨h, rfl⟩
    exact ⟨h.range, h.range', h.offered, h.offered', h.common,
      ⟨h.supported, h.supported', h.known, h.known'⟩, rfl⟩

end Protocol

namespace Peer

open Protocol

/-- Two announcements of the same chain by different processes that can be negotiated. -/
structure Joinable (a b : Hello) : Prop where
  chain : a.chainId = b.chainId
  nonce : a.instanceNonce ≠ b.instanceNonce
  compatible : Compatible a b

theorem Joinable.symm {a b : Hello} (h : Joinable a b) : Joinable b a :=
  ⟨h.chain.symm, h.nonce.symm, h.compatible.symm⟩

/-- The acknowledgement of a negotiation with the process of some nonce. -/
def ackOf (n : Negotiated) (nonce : BitVec 128) : HelloAck :=
  ⟨n.protocolVersion, n.features, nonce⟩

/-- Pings and pongs, which the handshake passes over. -/
def probe : Message → Bool
  | .ping _ | .pong _ => true
  | _ => false

/-- The messages without the pings and pongs. -/
def withoutProbes (messages : List Message) : List Message := messages.filter fun m => !probe m

namespace HandshakeMachine

variable {m : HandshakeMachine}

/-- A machine that has sent its announcement. -/
def started (hello : Hello) : HandshakeMachine := { new hello with state := .helloSent }

/-- A machine that has negotiated with the process of another announcement. -/
def joined (hello remote : Hello) (state : HandshakeState) : HandshakeMachine :=
  ⟨hello, some remote, some (agreed hello remote), state⟩

@[simp] theorem started_state (hello : Hello) : (started hello).state = .helloSent := rfl

@[simp] theorem started_negotiated (hello : Hello) : (started hello).negotiated = none := rfl

@[simp] theorem joined_state (hello remote : Hello) (state : HandshakeState) :
    (joined hello remote state).state = state := rfl

@[simp] theorem joined_negotiated (hello remote : Hello) (state : HandshakeState) :
    (joined hello remote state).negotiated = some (agreed hello remote) := rfl

theorem onMessage_probe {message : Message} (hstate : m.state ≠ .established)
    (hprobe : probe message) : ∃ response, m.onMessage message = .ok (m, response) ∧
      withoutProbes response.toList = [] := by
  cases message with
  | ping nonce => exact ⟨some (.pong nonce), if_pos hstate, rfl⟩
  | pong nonce => exact ⟨none, if_pos hstate, rfl⟩
  | _ => exact absurd hprobe Bool.false_ne_true

theorem onHello_ok {remote : Hello} (hjoin : Joinable m.localHello remote) :
    m.onHello remote = .ok (joined m.localHello remote .ackSent,
      some (.helloAck (ackOf (agreed m.localHello remote) remote.instanceNonce))) := by
  have hnegotiate := negotiate_eq_ok.mpr ⟨hjoin.compatible, rfl⟩
  simp only [onHello, ensure_ok hjoin.chain.symm, ensure_ok hjoin.nonce.symm, hnegotiate,
    mapError_ok, ok_bind]
  rfl

theorem started_onMessage {hello remote : Hello} (hjoin : Joinable hello remote) :
    (started hello).onMessage (.hello remote) = .ok (joined hello remote .ackSent,
      some (.helloAck (ackOf (agreed hello remote) remote.instanceNonce))) :=
  onHello_ok hjoin

theorem onMessage_hello_eq_ok {remote : Hello} {r : HandshakeMachine × Option Message}
    (h : m.onMessage (.hello remote) = .ok r) :
    m.state = .helloSent ∧ Joinable m.localHello remote := by
  simp only [onMessage] at h
  split_ifs at h with hstate
  simp only [onHello, bind_eq_ok, ensure_eq_ok, exists_unit, mapError_eq_ok, negotiate_eq_ok] at h
  obtain ⟨hchain, hnonce, n, ⟨hcompatible, -⟩, -⟩ := h
  exact ⟨hstate, hchain.symm, hnonce.symm, hcompatible⟩

theorem joined_onMessage (hello remote : Hello) :
    (joined hello remote .ackSent).onMessage
        (.helloAck (ackOf (agreed hello remote) hello.instanceNonce)) =
      .ok (joined hello remote .established, none) := by
  simp only [onMessage, joined, if_true, onHelloAck, orElse_some, ok_bind, ackOf, and_self,
    ensure_ok]
  rfl

theorem onMessage_helloAck_eq_ok {ack : HelloAck} {r : HandshakeMachine × Option Message}
    (h : m.onMessage (.helloAck ack) = .ok r) :
    m.state = .ackSent ∧ ∃ n, m.negotiated = some n ∧ ack = ackOf n m.localHello.instanceNonce ∧
      r = ({ m with state := .established }, none) := by
  simp only [onMessage] at h
  split_ifs at h with hstate
  simp only [onHelloAck, bind_eq_ok, orElse_eq_ok, ensure_eq_ok, exists_unit, pure_eq_ok] at h
  obtain ⟨n, hn, ⟨hversion, hfeatures, hnonce⟩, rfl⟩ := h
  refine ⟨hstate, n, hn, ?_, rfl⟩
  rw [ackOf, ← hversion, ← hfeatures, ← hnonce]

end HandshakeMachine

inductive Side where
  | first
  | second
  deriving DecidableEq, Repr

def Side.other : Side → Side
  | .first => .second
  | .second => .first

@[simp] theorem Side.other_other (s : Side) : s.other.other = s := by
  cases s <;> rfl

theorem Side.eq_or_eq_other (s t : Side) : s = t ∨ s = t.other := by
  cases s <;> cases t <;> simp [other]

@[simp] theorem Side.other_ne (s : Side) : s.other ≠ s := by
  cases s <;> decide

/-- Both machines, the error of a side that has failed, and the messages on their way to
each side, the oldest first. -/
structure Link where
  machine : Side → HandshakeMachine
  failure : Side → Option PeerError
  inbox : Side → List Message

namespace Link

open Function (update)

def start (hello : Side → Hello) : Link where
  machine s := .started (hello s)
  failure _ := none
  inbox s := [.hello (hello s.other)]

/-- A side that still takes messages. -/
def listening (c : Link) (s : Side) : Prop :=
  c.failure s = none ∧ (c.machine s).state ≠ .established

/-- A side takes the next message of its channel. -/
def receive (c : Link) (s : Side) : Link :=
  match c.inbox s with
  | [] => c
  | message :: rest =>
    match (c.machine s).onMessage message with
    | .error e =>
      { c with
        failure := update c.failure s (some e)
        inbox := update c.inbox s rest }
    | .ok (m, response) =>
      { c with
        machine := update c.machine s m
        inbox := update (update c.inbox s rest) s.other (c.inbox s.other ++ response.toList) }

/-- A side adds a message of its own. -/
def add (c : Link) (s : Side) (message : Message) : Link :=
  { c with inbox := update c.inbox s.other (c.inbox s.other ++ [message]) }

inductive Step (c : Link) : Link → Prop
  | receive (s : Side) (hlisten : c.listening s) (hinbox : c.inbox s ≠ []) : Step c (c.receive s)
  | add (s : Side) (message : Message) (hlisten : c.listening s) (hprobe : probe message) :
      Step c (c.add s message)

def Reachable (hello : Side → Hello) : Link → Prop := Relation.ReflTransGen Step (start hello)

/-- No side has anything left to take. -/
def Quiet (c : Link) : Prop := ∀ s, c.listening s → c.inbox s = []

variable {c : Link} {s : Side}

theorem receive_ok {message : Message} {rest : List Message} {m : HandshakeMachine}
    {response : Option Message} (hinbox : c.inbox s = message :: rest)
    (h : (c.machine s).onMessage message = .ok (m, response)) :
    c.receive s =
      { c with
        machine := update c.machine s m
        inbox := update (update c.inbox s rest) s.other (c.inbox s.other ++ response.toList) } := by
  simp only [receive, hinbox, h]

theorem receive_error {message : Message} {rest : List Message} {e : PeerError}
    (hinbox : c.inbox s = message :: rest) (h : (c.machine s).onMessage message = .error e) :
    c.receive s =
      { c with
        failure := update c.failure s (some e)
        inbox := update c.inbox s rest } := by
  simp only [receive, hinbox, h]

/-- The handshake messages that a side has sent so far. -/
def sent (hello : Side → Hello) (c : Link) (s : Side) : List Message :=
  .hello (hello s) :: ((c.machine s).negotiated.map fun n =>
    Message.helloAck (ackOf n (hello s.other).instanceNonce)).toList

/-- Where a side stands: it waits for the announcement or for the acknowledgement, and what it
waits for is what its channel holds; or it is established. -/
inductive Phase (hello : Side → Hello) (c : Link) (s : Side) : Prop
  | waiting (machine : c.machine s = .started (hello s))
      (inbox : c.failure s = none → withoutProbes (c.inbox s) = c.sent hello s.other)
  | acked (machine : c.machine s = .joined (hello s) (hello s.other) .ackSent)
      (join : Joinable (hello s) (hello s.other))
      (inbox : c.failure s = none → withoutProbes (c.inbox s) = (c.sent hello s.other).tail)
  | done (machine : c.machine s = .joined (hello s) (hello s.other) .established)
      (join : Joinable (hello s) (hello s.other))
      (other : (c.machine s.other).negotiated = some (agreed (hello s) (hello s.other)))

def Inv (hello : Side → Hello) (c : Link) : Prop := ∀ s, Phase hello c s

variable {hello : Side → Hello}

theorem inv_start (hello : Side → Hello) : Inv hello (start hello) :=
  fun _ => .waiting rfl fun _ => rfl

theorem Phase.negotiated_eq (h : Phase hello c s) {n : Negotiated}
    (hn : (c.machine s).negotiated = some n) :
    Joinable (hello s) (hello s.other) ∧ n = agreed (hello s) (hello s.other) := by
  cases h with
  | waiting machine => rw [machine] at hn; cases hn
  | acked machine join => rw [machine] at hn; exact ⟨join, (Option.some.inj hn).symm⟩
  | done machine join => rw [machine] at hn; exact ⟨join, (Option.some.inj hn).symm⟩

theorem withoutProbes_append (l l' : List Message) :
    withoutProbes (l ++ l') = withoutProbes l ++ withoutProbes l' := List.filter_append ..

theorem withoutProbes_cons_of_probe {message : Message} (h : probe message) (l : List Message) :
    withoutProbes (message :: l) = withoutProbes l := List.filter_cons_of_neg (by simp [h])

theorem withoutProbes_cons {message : Message} (h : ¬probe message) (l : List Message) :
    withoutProbes (message :: l) = message :: withoutProbes l := List.filter_cons_of_pos (by simp [h])

/-- What a side can do with the next message: pass over a probe, answer the announcement,
be established by the acknowledgement, or fail because the sides cannot be joined. -/
inductive Received (hello : Side → Hello) (c : Link) (s : Side) (rest : List Message) : Prop
  | probe (response : Option Message)
      (silent : withoutProbes response.toList = [])
      (same : withoutProbes rest = withoutProbes (c.inbox s))
      (receive : c.receive s = { c with
        inbox := update (update c.inbox s rest) s.other (c.inbox s.other ++ response.toList) })
  | hello (machine : c.machine s = .started (hello s)) (join : Joinable (hello s) (hello s.other))
      (tail : withoutProbes rest = (c.sent hello s.other).tail)
      (receive : c.receive s = { c with
        machine := update c.machine s (.joined (hello s) (hello s.other) .ackSent)
        inbox := update (update c.inbox s rest) s.other (c.inbox s.other ++
          [.helloAck (ackOf (agreed (hello s) (hello s.other)) (hello s.other).instanceNonce)]) })
  | helloAck (machine : c.machine s = .joined (hello s) (hello s.other) .ackSent)
      (join : Joinable (hello s) (hello s.other))
      (other : (c.machine s.other).negotiated = some (agreed (hello s) (hello s.other)))
      (receive : c.receive s = { c with
        machine := update c.machine s (.joined (hello s) (hello s.other) .established)
        inbox := update (update c.inbox s rest) s.other (c.inbox s.other ++ []) })
  | fail (machine : c.machine s = .started (hello s)) (apart : ¬Joinable (hello s) (hello s.other))
      (e : PeerError)
      (receive : c.receive s = { c with
        failure := update c.failure s (some e)
        inbox := update c.inbox s rest })

theorem Inv.received (hinv : Inv hello c) (hlisten : c.listening s) {message : Message}
    {rest : List Message} (hinbox : c.inbox s = message :: rest) : Received hello c s rest := by
  by_cases hprobe : probe message
  · obtain ⟨response, hok, hresponse⟩ := HandshakeMachine.onMessage_probe hlisten.2 hprobe
    refine .probe response hresponse (by rw [hinbox, withoutProbes_cons_of_probe hprobe]) ?_
    rw [receive_ok hinbox hok, Function.update_eq_self]
  cases hinv s with
  | waiting machine inbox =>
    have hnext := inbox hlisten.1
    rw [hinbox, withoutProbes_cons hprobe, sent, List.cons.injEq] at hnext
    obtain ⟨rfl, htail⟩ := hnext
    by_cases hjoin : Joinable (hello s) (hello s.other)
    · have hok := HandshakeMachine.started_onMessage hjoin
      rw [← machine] at hok
      exact .hello machine hjoin htail (receive_ok hinbox hok)
    · cases hr : (c.machine s).onMessage (.hello (hello s.other)) with
      | error e => exact .fail machine hjoin e (receive_error hinbox hr)
      | ok r =>
        rw [machine] at hr
        exact absurd (HandshakeMachine.onMessage_hello_eq_ok hr).2 hjoin
  | acked machine join inbox =>
    have hnext := inbox hlisten.1
    rw [hinbox, withoutProbes_cons hprobe, sent, List.tail_cons] at hnext
    cases hn : (c.machine s.other).negotiated with
    | none => rw [hn] at hnext; exact absurd hnext (by simp)
    | some n =>
      obtain rfl : n = agreed (hello s) (hello s.other) := by
        rw [((hinv s.other).negotiated_eq hn).2, Side.other_other, agreed_comm]
      rw [hn, Option.map_some, Option.toList_some, Side.other_other, List.cons.injEq] at hnext
      obtain ⟨rfl, -⟩ := hnext
      have hok := HandshakeMachine.joined_onMessage (hello s) (hello s.other)
      rw [← machine] at hok
      exact .helloAck machine join hn (receive_ok hinbox hok)
  | done machine => exact absurd (by rw [machine]; rfl) hlisten.2

/-- What becomes of the other side when a side goes on: it gets the response, which is what
the side has sent in addition. -/
theorem Phase.transfer (h : Phase hello c s) {c' : Link}
    (hmachine : c'.machine s = c.machine s) (hfailure : c'.failure s = c.failure s)
    (more : List Message) (hinbox : c'.inbox s = c.inbox s ++ more)
    (hsent : c'.sent hello s.other = c.sent hello s.other ++ withoutProbes more)
    (hkeeps : ∀ n, (c.machine s.other).negotiated = some n →
      (c'.machine s.other).negotiated = some n) : Phase hello c' s := by
  cases h with
  | waiting machine inbox =>
    refine .waiting (hmachine.trans machine) fun hrun => ?_
    rw [hinbox, withoutProbes_append, inbox (hfailure ▸ hrun), hsent]
  | acked machine join inbox =>
    refine .acked (hmachine.trans machine) join fun hrun => ?_
    rw [hinbox, withoutProbes_append, inbox (hfailure ▸ hrun), hsent, sent]
    rfl
  | done machine join other => exact .done (hmachine.trans machine) join (hkeeps _ other)

theorem Inv.receive (hinv : Inv hello c) (hlisten : c.listening s) {message : Message}
    {rest : List Message} (hinbox : c.inbox s = message :: rest) : Inv hello (c.receive s) := by
  have hne : s ≠ s.other := (Side.other_ne s).symm
  intro t
  obtain rfl | rfl := Side.eq_or_eq_other t s
  · cases hinv.received hlisten hinbox with
    | probe response silent same receive =>
      have hinbox' : (c.receive t).inbox t = rest := by simp [receive, hne]
      cases hinv t with
      | waiting machine inbox =>
        refine .waiting (by rw [receive, machine]) fun hrun => ?_
        rw [hinbox', same, inbox hlisten.1, receive]
        rfl
      | acked machine join inbox =>
        refine .acked (by rw [receive, machine]) join fun hrun => ?_
        rw [hinbox', same, inbox hlisten.1, receive]
        rfl
      | done machine => exact absurd (by rw [machine]; rfl) hlisten.2
    | hello machine join tail receive =>
      have hinbox' : (c.receive t).inbox t = rest := by simp [receive, hne]
      have hother : (c.receive t).machine t.other = c.machine t.other := by simp [receive]
      refine .acked (by simp [receive]) join fun hrun => ?_
      rw [hinbox', tail, sent, sent, hother]
    | helloAck machine join other receive =>
      have hother : (c.receive t).machine t.other = c.machine t.other := by simp [receive]
      exact .done (by simp [receive]) join (hother ▸ other)
    | fail machine apart e receive =>
      refine .waiting (by rw [receive, machine]) fun hrun => absurd hrun ?_
      simp [receive]
  · cases hinv.received hlisten hinbox with
    | probe response silent same receive =>
      refine (hinv s.other).transfer (by rw [receive]) (by rw [receive]) response.toList
        (by simp [receive]) ?_ (by rw [receive]; exact fun n hn => hn)
      rw [silent, List.append_nil, receive]
      rfl
    | hello machine join tail receive =>
      have hself : (c.receive s).machine s = .joined (hello s) (hello s.other) .ackSent := by
        simp [receive]
      refine (hinv s.other).transfer (by simp [receive]) (by rw [receive]) _
        (by rw [receive]; exact Function.update_self ..) ?_ ?_
      · rw [Side.other_other, sent, sent, hself, machine]
        rfl
      · simp_all
    | helloAck machine join other receive =>
      have hself : (c.receive s).machine s = .joined (hello s) (hello s.other) .established := by
        simp [receive]
      refine (hinv s.other).transfer (by simp [receive]) (by rw [receive]) []
        (by simp [receive]) ?_ ?_
      · rw [Side.other_other, sent, sent, hself, machine]
        rfl
      · simp_all
    | fail machine apart e receive =>
      refine (hinv s.other).transfer (by rw [receive]) (by simp [receive]) []
        (by simp [receive]) ?_ (by rw [receive]; exact fun n hn => hn)
      rw [receive]
      exact (List.append_nil _).symm

theorem Inv.add (hinv : Inv hello c) {message : Message} (hprobe : probe message) :
    Inv hello (c.add s message) := by
  have hmore : withoutProbes [message] = [] := withoutProbes_cons_of_probe hprobe []
  intro t
  by_cases ht : t = s.other
  · subst ht
    refine (hinv s.other).transfer rfl rfl [message] (by simp [Link.add]) ?_ fun n hn => hn
    rw [hmore, List.append_nil]
    rfl
  · refine (hinv t).transfer rfl rfl [] (by simp [Link.add, ht]) ?_ fun n hn => hn
    exact (List.append_nil _).symm

theorem Inv.step (hinv : Inv hello c) {c' : Link} (h : Step c c') : Inv hello c' := by
  cases h with
  | receive s hlisten hinbox =>
    obtain ⟨message, rest, hinbox⟩ := List.exists_cons_of_ne_nil hinbox
    exact hinv.receive hlisten hinbox
  | add s message hlisten hprobe => exact hinv.add hprobe

theorem Reachable.inv (h : Reachable hello c) : Inv hello c := by
  induction h with
  | refl => exact inv_start hello
  | tail _ hstep ih => exact ih.step hstep

end Link

end Peer

end Oregon
