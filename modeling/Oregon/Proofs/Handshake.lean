import Oregon.Sanity.Handshake

/-! Two machines joined by reliable channels agree: they are both established with the same
version and features when their announcements can be joined, and otherwise at least one of
them fails and none is established. A machine that any peer brought to its end has met an
announcement that can be joined with its own. -/

namespace Oregon.Peer

open Lib Protocol

namespace Link

open Function (update)

variable {hello : Side → Hello} {c c' : Link} {s : Side}

/-- How far a machine has come. -/
def stage (c : Link) (s : Side) : ℕ :=
  match (c.machine s).state with
  | .connected | .helloSent => 0
  | .negotiated | .ackSent => 1
  | .established => 2

/-- How many probes stand before the first handshake message. -/
def ahead (l : List Message) : ℕ := (l.takeWhile probe).length

theorem ahead_append {l : List Message} (h : withoutProbes l ≠ []) (more : List Message) :
    ahead (l ++ more) = ahead l := by
  induction l with
  | nil => exact absurd rfl h
  | cons message l ih =>
    by_cases hprobe : probe message
    · rw [withoutProbes_cons_of_probe hprobe] at h
      simpa [ahead, hprobe] using ih h
    · simp [ahead, hprobe]

theorem Inv.no_failure (hinv : Inv hello c) (hjoin : ∀ s, Joinable (hello s) (hello s.other))
    (hnone : ∀ s, c.failure s = none) (h : Step c c') (s : Side) : c'.failure s = none := by
  cases h with
  | add t message => exact hnone s
  | receive t hlisten hinbox =>
    obtain ⟨message, rest, hinbox⟩ := List.exists_cons_of_ne_nil hinbox
    cases hinv.received hlisten hinbox with
    | fail machine apart => exact absurd (hjoin t) apart
    | probe _ _ _ receive => rw [receive]; exact hnone s
    | hello _ _ _ receive => rw [receive]; exact hnone s
    | helloAck _ _ _ receive => rw [receive]; exact hnone s

theorem Reachable.no_failure (h : Reachable hello c)
    (hjoin : ∀ s, Joinable (hello s) (hello s.other)) : ∀ s, c.failure s = none := by
  induction h with
  | refl => exact fun s => rfl
  | tail hreach hstep ih => exact fun s => Inv.no_failure (Reachable.inv hreach) hjoin ih hstep s

/-- A side that is established has negotiated what the other side has negotiated too. -/
theorem Inv.established (hinv : Inv hello c) (h : (c.machine s).state = .established) :
    Joinable (hello s) (hello s.other) ∧
      (c.machine s).negotiated = some (agreed (hello s) (hello s.other)) ∧
      (c.machine s.other).negotiated = (c.machine s).negotiated := by
  cases hinv s with
  | waiting machine => rw [machine] at h; exact absurd h (by simp)
  | acked machine => rw [machine] at h; exact absurd h (by simp)
  | done machine join other => rw [other, machine]; exact ⟨join, rfl, rfl⟩

/-- A side that has not failed and has nothing left to take is established, or the other one
has failed before it sent what is missing. -/
theorem Inv.quiet (hinv : Inv hello c) (hquiet : c.Quiet) (hnone : ∀ s, c.failure s = none) :
    (c.machine s).state = .established := by
  by_contra hstate
  have hinbox := hquiet s ⟨hnone s, hstate⟩
  cases hinv s with
  | waiting machine inbox =>
    have hsent := inbox (hnone s)
    grind [sent, withoutProbes]
  | acked machine join inbox =>
    have hsent := inbox (hnone s)
    rw [hinbox, sent] at hsent
    cases hinv s.other with
    | waiting machine' inbox' =>
      have hsent' := inbox' (hnone s.other)
      rw [hquiet s.other ⟨hnone s.other, by simp [machine']⟩, sent] at hsent'
      exact absurd hsent' (by simp [withoutProbes])
    | acked machine' =>
      rw [machine'] at hsent
      exact absurd hsent (by simp [withoutProbes])
    | done machine' =>
      rw [machine'] at hsent
      exact absurd hsent (by simp [withoutProbes])
  | done machine => exact hstate (by rw [machine]; rfl)

/-- A side that has moved on or failed. -/
def Moved (c c' : Link) (s : Side) : Prop := c.stage s < c'.stage s ∨ c'.failure s ≠ none

/-- A side that takes a message moves, or has fewer probes before the handshake message. -/
theorem Inv.receive_moved (hinv : Inv hello c) (hlisten : c.listening s)
    (hwaits : withoutProbes (c.inbox s) ≠ []) :
    Moved c (c.receive s) s ∨
      ((c.receive s).machine s = c.machine s ∧ (c.receive s).failure s = c.failure s ∧
        withoutProbes ((c.receive s).inbox s) ≠ [] ∧
        ahead ((c.receive s).inbox s) < ahead (c.inbox s)) := by
  have hne : s ≠ s.other := (Side.other_ne s).symm
  cases hinbox : c.inbox s with
  | nil => rw [hinbox] at hwaits; exact absurd rfl hwaits
  | cons message rest =>
    cases hinv.received hlisten hinbox with
    | probe response silent same receive =>
      have hinbox' : (c.receive s).inbox s = rest := by simp [receive, hne]
      refine .inr ⟨by rw [receive], by rw [receive], by rwa [hinbox', same], ?_⟩
      have hprobe : probe message := by
        by_contra hprobe
        rw [hinbox, withoutProbes_cons hprobe] at same
        exact absurd (congrArg List.length same) (by simp)
      simp [hinbox', ahead, hprobe]
    | hello machine join tail receive => exact .inl (.inl (by simp [stage, receive, machine]))
    | helloAck machine join other receive => exact .inl (.inl (by simp [stage, receive, machine]))
    | fail machine apart e receive => exact .inl (.inr (by simp [receive]))

/-- In every step a side that waits for a message in its channel moves, or goes on waiting with
no more probes before it. -/
theorem Inv.step_moved (hinv : Inv hello c) (hstep : Step c c' ∨ c' = c) (hlisten : c.listening s)
    (hwaits : withoutProbes (c.inbox s) ≠ []) :
    Moved c c' s ∨
      (c'.machine s = c.machine s ∧ c'.failure s = c.failure s ∧
        withoutProbes (c'.inbox s) ≠ [] ∧ ahead (c'.inbox s) ≤ ahead (c.inbox s)) := by
  have happend : ∀ {c'' : Link} (more : List Message), c''.machine s = c.machine s →
      c''.failure s = c.failure s → c''.inbox s = c.inbox s ++ more →
      c''.machine s = c.machine s ∧ c''.failure s = c.failure s ∧
        withoutProbes (c''.inbox s) ≠ [] ∧ ahead (c''.inbox s) ≤ ahead (c.inbox s) := by
    intro c'' more hmachine hfailure hinbox
    refine ⟨hmachine, hfailure, ?_, by rw [hinbox, ahead_append hwaits]⟩
    rw [hinbox, withoutProbes_append]
    exact fun h => hwaits (List.append_eq_nil_iff.mp h).1
  obtain hstep | rfl := hstep
  · cases hstep with
    | add t message =>
      right
      by_cases ht : s = t.other
      · subst ht
        exact happend [message] rfl rfl (by simp [Link.add])
      · exact happend [] rfl rfl (by simp [Link.add, ht])
    | receive t hlisten' hinbox =>
      obtain rfl | rfl := Side.eq_or_eq_other s t
      · refine (hinv.receive_moved hlisten hwaits).imp_right ?_
        grind
      · right
        obtain ⟨message, rest, hinbox⟩ := List.exists_cons_of_ne_nil hinbox
        cases hinv.received hlisten' hinbox with
        | probe response silent same receive =>
          exact happend response.toList (by rw [receive]) (by rw [receive]) (by simp [receive])
        | hello machine join tail receive =>
          exact happend _ (by simp [receive]) (by rw [receive])
            (by rw [receive]; exact Function.update_self ..)
        | helloAck machine join other receive =>
          exact happend [] (by simp [receive]) (by rw [receive]) (by simp [receive])
        | fail machine apart e receive =>
          exact happend [] (by rw [receive]) (by simp [receive]) (by simp [receive])
  · exact .inr (happend [] rfl rfl (List.append_nil _).symm)

theorem stage_le_two (c : Link) (s : Side) : c.stage s ≤ 2 := by
  rw [stage]
  split <;> decide

theorem Inv.stage_le (hinv : Inv hello c) (hstep : Step c c' ∨ c' = c) :
    c.stage s ≤ c'.stage s := by
  obtain hstep | rfl := hstep
  · cases hstep with
    | add t message => exact le_rfl
    | receive t hlisten hinbox =>
      obtain ⟨message, rest, hinbox⟩ := List.exists_cons_of_ne_nil hinbox
      cases hinv.received hlisten hinbox with
      | probe response silent same receive => rw [receive]; exact le_rfl
      | hello machine join tail receive =>
        by_cases hs : s = t
        · subst hs
          simp [stage, receive, machine]
        · simp [stage, receive, hs]
      | helloAck machine join other receive =>
        by_cases hs : s = t
        · subst hs
          simp [stage, receive, machine]
        · simp [stage, receive, hs]
      | fail machine apart e receive => rw [receive]; exact le_rfl
  · exact le_rfl

/-- Once both sides have negotiated, each has the other's acknowledgement in its channel. -/
theorem Inv.waits_ack (hinv : Inv hello c) (hself : 1 ≤ c.stage s) (hnot : c.stage s ≠ 2)
    (hother : 1 ≤ c.stage s.other) (hnone : c.failure s = none) :
    withoutProbes (c.inbox s) ≠ [] := by
  have hnegotiated : ∃ n, (c.machine s.other).negotiated = some n := by
    cases hinv s.other with
    | waiting machine => simp [stage, machine] at hother
    | acked machine => exact ⟨_, by rw [machine]; rfl⟩
    | done machine => exact ⟨_, by rw [machine]; rfl⟩
  obtain ⟨n, hn⟩ := hnegotiated
  cases hinv s with
  | waiting machine => simp [stage, machine] at hself
  | acked machine join inbox => simp [inbox hnone, sent, hn]
  | done machine => simp [stage, machine] at hnot

theorem Inv.state_of_stage (hinv : Inv hello c) (h : c.stage s = 2) :
    (c.machine s).state = .established := by
  cases hinv s with
  | waiting machine => simp [stage, machine] at h
  | acked machine => simp [stage, machine] at h
  | done machine => rw [machine]; rfl

/-- A run that never leaves a message in the channel of a side that listens forever. -/
structure FairRun (hello : Side → Hello) (run : ℕ → Link) : Prop where
  start : run 0 = Link.start hello
  step : ∀ n, Step (run n) (run (n + 1)) ∨ run (n + 1) = run n
  fair : ∀ s n, ∃ k, n ≤ k ∧ ((run k).listening s → (run k).inbox s ≠ [] →
    run (k + 1) = (run k).receive s)

namespace FairRun

variable {run : ℕ → Link} {n : ℕ}

theorem reachable (h : FairRun hello run) (n : ℕ) : Reachable hello (run n) := by
  induction n with
  | zero => rw [h.start]; exact .refl
  | succ n ih =>
    obtain hstep | heq := h.step n
    · exact ih.tail hstep
    · rwa [heq]

theorem inv (h : FairRun hello run) (n : ℕ) : Inv hello (run n) := (h.reachable n).inv

theorem waits (h : FairRun hello run) (hlisten : (run n).listening s)
    (hwaits : withoutProbes ((run n).inbox s) ≠ []) (k : ℕ) :
    (∃ j, n ≤ j ∧ Moved (run n) (run j) s) ∨
      ((run (n + k)).machine s = (run n).machine s ∧ (run (n + k)).failure s = (run n).failure s ∧
        withoutProbes ((run (n + k)).inbox s) ≠ [] ∧
        ahead ((run (n + k)).inbox s) ≤ ahead ((run n).inbox s)) := by
  induction k with
  | zero => exact .inr ⟨rfl, rfl, hwaits, le_rfl⟩
  | succ k ih =>
    obtain hmoved | ⟨hmachine, hfailure, hwaits', hle⟩ := ih
    · exact .inl hmoved
    · have hlisten' : (run (n + k)).listening s := by rwa [listening, hmachine, hfailure]
      obtain hmoved | ⟨hmachine', hfailure', hwaits'', hle'⟩ :=
        (h.inv (n + k)).step_moved (h.step (n + k)) hlisten' hwaits'
      · grind [Moved, stage]
      · exact .inr ⟨hmachine'.trans hmachine, hfailure'.trans hfailure, hwaits'', hle'.trans hle⟩

theorem moves (h : FairRun hello run) (hlisten : (run n).listening s)
    (hwaits : withoutProbes ((run n).inbox s) ≠ []) : ∃ k, n ≤ k ∧ Moved (run n) (run k) s := by
  -- By induction on the number of probes before the message: each time the side is served,
  -- there is one less.
  induction hahead : ahead ((run n).inbox s) using Nat.strong_induction_on generalizing n with
  | _ count ih =>
    obtain ⟨k, hk, hserved⟩ := h.fair s n
    obtain ⟨k, rfl⟩ := Nat.exists_eq_add_of_le hk
    obtain hmoved | ⟨hmachine, hfailure, hwaits', hle⟩ := h.waits hlisten hwaits k
    · exact hmoved
    have hlisten' : (run (n + k)).listening s := by rwa [listening, hmachine, hfailure]
    have hinbox : (run (n + k)).inbox s ≠ [] := fun hnil => hwaits' (by rw [hnil]; rfl)
    have hreceive := (h.inv (n + k)).receive_moved hlisten' hwaits'
    rw [← hserved hlisten' hinbox] at hreceive
    have hstage : (run (n + k)).stage s = (run n).stage s := by rw [stage, stage, hmachine]
    obtain hmoved | ⟨hmachine', hfailure', hwaits'', hlt⟩ := hreceive
    · grind [Moved]
    · have hlisten'' : (run (n + k + 1)).listening s := by
        rwa [listening, hmachine', hmachine, hfailure', hfailure]
      obtain ⟨j, hj, hmoved⟩ := ih _ (by omega) hlisten'' hwaits'' rfl
      grind [stage, Moved]

theorem stage_mono (h : FairRun hello run) {k : ℕ} (hk : n ≤ k) :
    (run n).stage s ≤ (run k).stage s := by
  induction k, hk using Nat.le_induction with
  | base => exact le_rfl
  | succ k _ ih => exact ih.trans ((h.inv k).stage_le (h.step k))

theorem joined (h : FairRun hello run) (hjoin : ∀ s, Joinable (hello s) (hello s.other)) :
    ∃ k, ∀ s, (run k).stage s = 2 := by
  have hnone : ∀ n s, (run n).failure s = none := fun n => (h.reachable n).no_failure hjoin
  have hrises : ∀ {n s}, (run n).stage s ≠ 2 → withoutProbes ((run n).inbox s) ≠ [] →
      ∃ k, (run n).stage s < (run k).stage s := by
    intro n s hstage hwaits
    have hlisten : (run n).listening s := ⟨hnone n s, fun heq => hstage (by rw [stage, heq])⟩
    obtain ⟨k, -, hmoved | hfailed⟩ := h.moves hlisten hwaits
    · exact ⟨k, hmoved⟩
    · exact absurd (hnone k s) hfailed
  have hacked : ∀ s, ∃ k, 1 ≤ (run k).stage s := fun s => by
    obtain ⟨k, hk⟩ : ∃ k, (run 0).stage s < (run k).stage s :=
      hrises (by simp [h.start, stage, Link.start]) (by simp [h.start, Link.start, withoutProbes,
        probe])
    exact ⟨k, by omega⟩
  obtain ⟨k₁, h₁⟩ := hacked .first
  obtain ⟨k₂, h₂⟩ := hacked .second
  have hboth : ∀ s, 1 ≤ (run (max k₁ k₂)).stage s := by
    rintro (_ | _)
    · exact h₁.trans (h.stage_mono (le_max_left ..))
    · exact h₂.trans (h.stage_mono (le_max_right ..))
  have hdone : ∀ s, ∃ k, 2 ≤ (run k).stage s := fun s => by
    by_cases hstage : (run (max k₁ k₂)).stage s = 2
    · exact ⟨_, hstage.ge⟩
    · obtain ⟨k, hk⟩ := hrises hstage ((h.inv _).waits_ack (hboth s) hstage (hboth s.other)
        (hnone _ s))
      grind
  obtain ⟨k₃, h₃⟩ := hdone .first
  obtain ⟨k₄, h₄⟩ := hdone .second
  refine ⟨max k₃ k₄, ?_⟩
  rintro (_ | _)
  · exact le_antisymm (stage_le_two _ _) (h₃.trans (h.stage_mono (le_max_left ..)))
  · exact le_antisymm (stage_le_two _ _) (h₄.trans (h.stage_mono (le_max_right ..)))

theorem fails (h : FairRun hello run) (hjoin : ¬Joinable (hello .first) (hello .second)) :
    ∃ k s, (run k).failure s ≠ none := by
  have hlisten : (run 0).listening .first := by simp [h.start, Link.start, listening]
  have hwaits : withoutProbes ((run 0).inbox .first) ≠ [] := by
    simp [h.start, Link.start, withoutProbes, probe]
  obtain ⟨k, -, hmoved | hfailed⟩ := h.moves hlisten hwaits
  · have hstage : (run k).stage .first = 0 := by
      cases h.inv k .first with
      | waiting machine => simp [stage, machine]
      | acked _ join => exact absurd join hjoin
      | done _ join => exact absurd join hjoin
    omega
  · exact ⟨k, .first, hfailed⟩

end FairRun

end Link

namespace HandshakeMachine

variable {own remote : Hello} {m : HandshakeMachine}

theorem started_onMessage_cases {message : Message} {r : HandshakeMachine × Option Message}
    (h : (started own).onMessage message = .ok r) : r.1 = started own ∨
      ∃ remote, message = .hello remote ∧ Joinable own remote ∧ r.1 = joined own remote .ackSent := by
  cases message with
  | ping nonce => obtain rfl := Except.ok.inj h; exact .inl rfl
  | pong nonce => obtain rfl := Except.ok.inj h; exact .inl rfl
  | hello remote =>
    have hjoin : Joinable own remote := (onMessage_hello_eq_ok h).2
    rw [started_onMessage hjoin] at h
    grind
  | helloAck ack => exact absurd (onMessage_helloAck_eq_ok h).1 (by simp)
  | _ => exact absurd h (by simp [onMessage, started])

theorem joined_onMessage_cases {message : Message} {r : HandshakeMachine × Option Message}
    (h : (joined own remote .ackSent).onMessage message = .ok r) :
    r.1 = joined own remote .ackSent ∨ r.1 = joined own remote .established := by
  cases message with
  | ping nonce => obtain rfl := Except.ok.inj h; exact .inl rfl
  | pong nonce => obtain rfl := Except.ok.inj h; exact .inl rfl
  | hello remote => exact absurd (onMessage_hello_eq_ok h).1 (by simp)
  | helloAck ack =>
    obtain ⟨-, n, -, -, rfl⟩ := onMessage_helloAck_eq_ok h
    exact .inr rfl
  | _ => exact absurd h (by simp [onMessage, joined])

theorem consume_cons {message : Message} {rest responses : List Message} {m' : HandshakeMachine}
    (hstate : m.state ≠ .established) (h : m.consume (message :: rest) = .ok (m', responses)) :
    ∃ r responses', m.onMessage message = .ok r ∧ r.1.consume rest = .ok (m', responses') := by
  simp only [consume, if_neg hstate, bind_eq_ok, pure_eq_ok, Prod.mk.injEq] at h
  grind

theorem consume_established {messages responses : List Message} (hstate : m.state = .established)
    {m' : HandshakeMachine} (h : m.consume messages = .ok (m', responses)) : m' = m := by
  cases messages with
  | nil => exact (Prod.mk.inj (Except.ok.inj h)).1.symm
  | cons message rest =>
    rw [consume, if_pos hstate] at h
    exact (Prod.mk.inj (Except.ok.inj h)).1.symm

theorem consume_joined {messages responses : List Message} {m' : HandshakeMachine}
    (h : (joined own remote .ackSent).consume messages = .ok (m', responses))
    (hstate : m'.state = .established) : m' = joined own remote .established := by
  induction messages generalizing responses with
  | nil =>
    obtain ⟨rfl, -⟩ := Prod.mk.inj (Except.ok.inj h)
    exact absurd hstate (by simp)
  | cons message rest ih =>
    obtain ⟨r, responses', hr, hrest⟩ := consume_cons (by simp) h
    obtain heq | heq := joined_onMessage_cases hr
    · exact ih (heq ▸ hrest)
    · rw [heq] at hrest
      exact consume_established rfl hrest

/-- A machine that a peer brought to its end, whatever the peer sent, took an announcement
from it that can be joined with its own. -/
theorem consume_started {messages responses : List Message} {m' : HandshakeMachine}
    (h : (started own).consume messages = .ok (m', responses))
    (hstate : m'.state = .established) :
    ∃ remote, .hello remote ∈ messages ∧ Joinable own remote ∧
      m' = joined own remote .established := by
  induction messages generalizing responses with
  | nil =>
    obtain ⟨rfl, -⟩ := Prod.mk.inj (Except.ok.inj h)
    exact absurd hstate (by simp)
  | cons message rest ih =>
    obtain ⟨r, responses', hr, hrest⟩ := consume_cons (by simp) h
    obtain heq | ⟨remote, rfl, hjoin, heq⟩ := started_onMessage_cases hr
    · grind
    · rw [heq] at hrest
      exact ⟨remote, List.mem_cons_self, hjoin, consume_joined hrest hstate⟩

end HandshakeMachine

/-- A side that is established with a version and features. -/
def Link.Established (c : Link) (n : Negotiated) (s : Side) : Prop :=
  (c.machine s).state = .established ∧ (c.machine s).negotiated = some n

/-- What holds of two machines started with these announcements. -/
structure HandshakeAgreement (hello : Side → Hello) : Prop where
  /-- Sides that can be joined never fail. -/
  unharmed : Joinable (hello .first) (hello .second) → ∀ c, Link.Reachable hello c →
    ∀ s, c.failure s = none
  /-- They are established alike when nothing is left to take, and in every fair run. -/
  settled : Joinable (hello .first) (hello .second) → ∀ c, Link.Reachable hello c → c.Quiet →
    ∃ n, ∀ s, c.Established n s
  reached : Joinable (hello .first) (hello .second) → ∀ run, Link.FairRun hello run →
    ∃ k n, ∀ s, (run k).Established n s
  /-- Of other sides none is established, and one fails. -/
  refused : ¬Joinable (hello .first) (hello .second) → ∀ c, Link.Reachable hello c →
    (∀ s, (c.machine s).state ≠ .established) ∧ (c.Quiet → ∃ s, c.failure s ≠ none)
  failed : ¬Joinable (hello .first) (hello .second) → ∀ run, Link.FairRun hello run →
    ∃ k s, (run k).failure s ≠ none
  /-- In any case what a side is established with is what the other side has computed. -/
  computed : ∀ c, Link.Reachable hello c → ∀ n s, c.Established n s →
    (c.machine s.other).negotiated = some n

/-- What a machine that is established has taken from its peer. -/
def PeerAccepted (own : Hello) (messages : List Message) (m : HandshakeMachine) : Prop :=
  ∃ remote n, .hello remote ∈ messages ∧ m.remote = some remote ∧
    m.negotiated = some n ∧ remote.chainId = own.chainId ∧
    remote.instanceNonce ≠ own.instanceNonce ∧
    (own.minProtocolVersion ≤ n.protocolVersion ∧ n.protocolVersion ≤ own.maxProtocolVersion) ∧
    (remote.minProtocolVersion ≤ n.protocolVersion ∧
      n.protocolVersion ≤ remote.maxProtocolVersion) ∧
    n.features.contains own.requiredFeatures ∧ n.features.contains remote.requiredFeatures

theorem handshake_agreement :
    (∀ hello : Side → Hello, HandshakeAgreement hello) ∧
      ∀ (own : Hello) (messages responses : List Message) (m : HandshakeMachine),
        (HandshakeMachine.started own).consume messages = .ok (m, responses) →
        m.state = .established → PeerAccepted own messages m := by
  refine ⟨fun hello => ?_, fun own messages responses m hconsume hstate => ?_⟩
  · have hsides : Joinable (hello .first) (hello .second) →
        ∀ s : Side, Joinable (hello s) (hello s.other) := by
      rintro hjoin (_ | _)
      · exact hjoin
      · exact hjoin.symm
    have hsame : ∀ s : Side, agreed (hello s) (hello s.other) =
        agreed (hello .first) (hello .second) := by
      rintro (_ | _)
      · rfl
      · exact agreed_comm ..
    have hends : ∀ {c}, Link.Inv hello c → (∀ s, (c.machine s).state = .established) →
        ∃ n, ∀ s, c.Established n s := fun hinv hstate =>
      ⟨agreed (hello .first) (hello .second), fun s =>
        ⟨hstate s, (hinv.established (hstate s)).2.1.trans (congrArg some (hsame s))⟩⟩
    have hapart : ¬Joinable (hello .first) (hello .second) →
        ∀ s : Side, ¬Joinable (hello s) (hello s.other) := by
      rintro hjoin (_ | _) h
      · exact hjoin h
      · exact hjoin h.symm
    constructor
    case unharmed => exact fun hjoin c hreach => hreach.no_failure (hsides hjoin)
    case settled =>
      intro hjoin c hreach hquiet
      exact hends hreach.inv fun s => hreach.inv.quiet hquiet (hreach.no_failure (hsides hjoin))
    case reached =>
      intro hjoin run hrun
      obtain ⟨k, hk⟩ := hrun.joined (hsides hjoin)
      exact ⟨k, hends (hrun.inv k) fun s => (hrun.inv k).state_of_stage (hk s)⟩
    case refused =>
      intro hjoin c hreach
      have hnever : ∀ s, (c.machine s).state ≠ .established := fun s hstate =>
        hapart hjoin s (hreach.inv.established hstate).1
      refine ⟨hnever, fun hquiet => ?_⟩
      by_contra hnone
      rw [not_exists] at hnone
      exact hnever .first (hreach.inv.quiet hquiet fun s => not_not.mp (hnone s))
    case failed => exact fun hjoin run hrun => hrun.fails hjoin
    case computed =>
      intro c hreach n s hestablished
      exact (hreach.inv.established hestablished.1).2.2.trans hestablished.2
  · obtain ⟨remote, hmem, hjoin, rfl⟩ := HandshakeMachine.consume_started hconsume hstate
    exact ⟨remote, agreed own remote, hmem, rfl, rfl, hjoin.chain.symm, hjoin.nonce.symm,
      hjoin.compatible.agreed_spec⟩

/-- Two processes of one chain that offer everything and require headers. -/
def sampleHello (s : Side) : Hello where
  minProtocolVersion := 1
  maxProtocolVersion := 2
  chainId := 0
  instanceNonce := if s = .first then 1 else 2
  offeredFeatures := .KNOWN
  requiredFeatures := .HEADERS_SYNC
  bestHeight := 0
  bestBlockId := 0

theorem joinable_sample : Joinable (sampleHello .first) (sampleHello .second) where
  chain := rfl
  nonce := by decide
  compatible := by
    refine ⟨?_, ?_, ?_, ?_, ?_, ?_, ⟨2, ?_⟩, ?_, ?_⟩ <;> decide

theorem handshake_agreement_sample :
    Joinable (sampleHello .first) (sampleHello .second) ∧ HandshakeAgreement sampleHello ∧
      PeerAccepted (sampleHello .first)
        [.ping 7, .hello (sampleHello .second), .helloAck ⟨2, .KNOWN, 1⟩]
        (.joined (sampleHello .first) (sampleHello .second) .established) :=
  ⟨joinable_sample, handshake_agreement.1 sampleHello,
    handshake_agreement.2 _ _ [.pong 7, .helloAck ⟨2, .KNOWN, 2⟩] _ (by decide +kernel) rfl⟩

end Oregon.Peer
