import Oregon.Sanity.Relay

/-! The relay does not repeat itself: every inventory holds the last items that were put into
it, so an item comes back to a peer only after as many others as the inventories hold. -/

namespace Oregon.Relay

open Lib Protocol Peer

variable {log : List RelayEvent} {s : RelayState} {p : PeerId} {x : InventoryItem}

/-- The log ends in the relay of an item, with nothing but this item since. -/
def Bursting (x : InventoryItem) (log : List RelayEvent) : Prop :=
  ∃ e burst, log = e ++ .relayed x :: burst ∧
    ∀ event ∈ burst, event.item = x ∧ ∀ y, event ≠ .relayed y

/-- Every announcement comes in the burst of a relay, right after it was noted. -/
def Grouped (log : List RelayEvent) : Prop :=
  ∀ earlier later p x, log = earlier ++ .announced p x :: later →
    (∃ e, earlier = e ++ [.noted p x]) ∧ Bursting x earlier

theorem grouped_nil : Grouped [] := by
  intro earlier later p x h
  exact absurd h (by simp)

theorem Grouped.snoc (h : Grouped log) {event : RelayEvent}
    (hevent : ∀ p x, event = .announced p x → (∃ e, log = e ++ [.noted p x]) ∧ Bursting x log) :
    Grouped (log ++ [event]) := by
  intro earlier later p x hlog
  cases later using List.reverseRecOn with
  | nil => simp_all
  | append_singleton later last =>
    rw [← List.cons_append, ← List.append_assoc] at hlog
    obtain ⟨rfl, -⟩ := List.append_inj' hlog rfl
    exact h earlier later p x rfl

theorem Grouped.insertion (h : Grouped log) (inserted : Bool) {event : RelayEvent}
    (hevent : ∀ p x, event ≠ .announced p x) : Grouped (log ++ insertion inserted event) := by
  cases inserted with
  | false => simpa [Relay.insertion] using h
  | true => exact h.snoc fun p x heq => absurd heq (hevent p x)

theorem Bursting.snoc (h : Bursting x log) {event : RelayEvent} (hitem : event.item = x)
    (hevent : ∀ y, event ≠ .relayed y) : Bursting x (log ++ [event]) := by
  obtain ⟨e, burst, rfl, hburst⟩ := h
  refine ⟨e, burst ++ [event], by simp, fun event' h => ?_⟩
  grind

theorem Grouped.announce (h : Grouped log) (hburst : Bursting x log) (receivers : List PeerId) :
    Grouped (log ++ receivers.flatMap fun p => [.noted p x, .announced p x]) := by
  induction receivers generalizing log with
  | nil => simpa using h
  | cons p receivers ih =>
    have hnoted : Grouped (log ++ [.noted p x]) := h.snoc (by simp)
    have hburst' : Bursting x (log ++ [.noted p x]) := hburst.snoc rfl (by simp)
    have hannounced : Grouped (log ++ [.noted p x] ++ [.announced p x]) := by
      refine hnoted.snoc ?_
      simp_all
    have hrest := ih hannounced (hburst'.snoc rfl (by simp))
    simpa using hrest

theorem Kept.step (h : Kept log s) (call : RelayCall) :
    ∃ s' events, s.step call = some (s', events) ∧ Kept (log ++ events) s' ∧
      (Grouped log → Grouped (log ++ events)) := by
  cases call with
  | notePeerInventory peerId item =>
    obtain ⟨s', inserted, hnote, hkept, -, -⟩ := h.notePeerInventory peerId item
    exact ⟨s', _, by rw [RelayState.step, hnote]; rfl, hkept,
      fun hgrouped => hgrouped.insertion inserted (by simp)⟩
  | relayInventory source peers authorization =>
    obtain ⟨noted, recent, s', receivers, hsource, hrecent, hrelay, hnone, hkept, -⟩ :=
      h.relayInventory source peers authorization
    have hevents : (receivers.map fun p =>
        PeerCommand.send p (.inv [authorization.item]) .gossip).flatMap announcedBy =
        receivers.flatMap fun p =>
          [.noted p authorization.item, .announced p authorization.item] := by
      rw [List.flatMap_map]
      rfl
    refine ⟨s', _, by
      rw [RelayState.step, hsource, Option.bind_eq_bind, Option.bind_some, hrecent, hrelay]
      rfl, ?_, ?_⟩
    · rwa [hevents]
    · intro hgrouped
      rw [hevents, ← List.append_assoc, ← List.append_assoc]
      have hnoted : Grouped (log ++ source.elim [] fun p =>
          insertion noted.2 (.noted p authorization.item)) := by
        cases source with
        | none => simpa using hgrouped
        | some p => exact hgrouped.insertion noted.2 (by simp)
      have hrelayed : Grouped ((log ++ source.elim [] fun p =>
          insertion noted.2 (.noted p authorization.item)) ++
          insertion recent.2 (.relayed authorization.item)) :=
        hnoted.insertion recent.2 (by simp)
      cases hcase : recent.2 with
      | false => simp_all
      | true =>
        rw [hcase] at hrelayed
        exact hrelayed.announce ⟨_, [], rfl, by simp⟩ receivers

theorem RelayRun.kept (run : RelayRun log s) : Kept log s ∧ Grouped log := by
  induction run with
  | start => exact ⟨kept_default, grouped_nil⟩
  | @step log events s s' call _ h ih =>
    obtain ⟨s₁, events₁, hstep, hkept, hgrouped⟩ := ih.1.step call
    simp_all

/-- Between two announcements of an item to a peer many others were noted for the peer. -/
theorem noted_between {earlier between later : List RelayEvent} (hkept : Kept log s)
    (hgrouped : Grouped log)
    (hlog : log = earlier ++ .announced p x :: (between ++ .announced p x :: later)) :
    ∃ others : List InventoryItem, others.Nodup ∧ MAX_KNOWN_INVENTORY_PER_PEER ≤ others.length ∧
      ∀ y ∈ others, y ≠ x ∧ .noted p y ∈ between := by
  obtain ⟨⟨e, rfl⟩, -⟩ := hgrouped _ _ _ _ hlog
  have hlog' : log = e ++ [.noted p x] ++ .announced p x :: between ++ .announced p x :: later := by
    rw [hlog]
    simp
  obtain ⟨⟨e', he'⟩, -⟩ := hgrouped _ _ _ _ hlog'
  cases between using List.reverseRecOn with
  | nil =>
    obtain ⟨-, heq⟩ := List.append_inj' he' rfl
    exact absurd heq (by simp)
  | append_singleton middle last =>
    rw [← List.cons_append, ← List.append_assoc] at he'
    obtain ⟨-, heq⟩ := List.append_inj' he' rfl
    obtain rfl := List.singleton_inj.mp heq
    have hfresh := hkept.noted p
    have hnoted : notedOf p log = notedOf p e ++ x :: notedOf p middle ++ [x] ++
        notedOf p later := by
      rw [hlog]
      simp [notedOf]
    rw [hnoted] at hfresh
    obtain ⟨hlength, hnodup, hx⟩ := hfresh.of_append.spaced
    refine ⟨(notedOf p middle).take MAX_KNOWN_INVENTORY_PER_PEER, hnodup, ?_, fun y hy => ?_⟩
    · rw [List.length_take]
      omega
    · refine ⟨ne_of_mem_of_not_mem hy hx, List.mem_append_left _ ?_⟩
      exact (mem_notedOf ..).mp (List.mem_of_mem_take hy)

theorem relayed_between {earlier between later : List RelayEvent} (hkept : Kept log s)
    (hgrouped : Grouped log)
    (hlog : log = earlier ++ .announced p x :: (between ++ .announced p x :: later)) :
    ∃ others : List InventoryItem, others.Nodup ∧ MAX_RECENT_RELAY_CACHE ≤ others.length ∧
      ∀ y ∈ others, y ≠ x ∧ .relayed y ∈ between := by
  obtain ⟨noted, hnodup, hnoted, hothers⟩ := noted_between hkept hgrouped hlog
  obtain ⟨-, e, burst, rfl, hburst⟩ := hgrouped _ _ _ _ hlog
  have hlog' : log = e ++ .relayed x :: burst ++ .announced p x :: between ++
      .announced p x :: later := by
    rw [hlog]
    simp
  obtain ⟨-, e', burst', he', hburst'⟩ := hgrouped _ _ _ _ hlog'
  -- The second announcement comes in a burst of its own, or the first one was in the same.
  obtain ⟨gap, rfl, hgap⟩ | ⟨gap, -, hgap⟩ := List.append_eq_append_iff.mp he'
  · cases gap with
    | nil => exact absurd hgap (by simp)
    | cons first gap =>
      obtain ⟨rfl, rfl⟩ := List.cons.inj hgap
      have hfresh := hkept.relayed
      have hsilent : ∀ l : List RelayEvent, (∀ event ∈ l, event.item = x ∧
          ∀ y, event ≠ .relayed y) → relayedOf l = [] := by
        intro l hl
        refine List.eq_nil_iff_forall_not_mem.mpr fun y hy => ?_
        exact (hl _ ((mem_relayedOf ..).mp hy)).2 y rfl
      have hrelayed : relayedOf log = relayedOf e ++ x :: relayedOf gap ++ [x] ++
          relayedOf later := by
        rw [hlog]
        have h₁ := hsilent burst hburst
        have h₂ := hsilent burst' hburst'
        grind [relayedOf]
      rw [hrelayed] at hfresh
      obtain ⟨hlength, hnodup', hx⟩ := hfresh.of_append.spaced
      refine ⟨(relayedOf gap).take MAX_RECENT_RELAY_CACHE, hnodup', ?_, fun y hy => ?_⟩
      · rw [List.length_take]
        omega
      · grind [mem_relayedOf]
  · cases gap with
    | nil => exact absurd hgap (by simp)
    | cons first gap =>
      obtain ⟨-, rfl⟩ := List.cons.inj hgap
      -- Then nothing else was noted in between, although many others must have been.
      have hne : noted ≠ [] := by
        rintro rfl
        exact absurd hnoted (by decide)
      obtain ⟨y, hy⟩ := List.exists_mem_of_ne_nil noted hne
      obtain ⟨hyx, hevent⟩ := hothers y hy
      have hmem : .noted p y ∈ gap ++ .announced p x :: between :=
        List.mem_append_right _ (List.mem_cons_of_mem _ hevent)
      exact absurd (hburst' _ hmem).1 hyx

/-- What holds after any calls of the relay. -/
structure RelaySpaced (log : List RelayEvent) (s : RelayState) : Prop where
  /-- No call panics. -/
  total : ∀ call, (s.step call).isSome
  recent : s.recentRelay.Holds 65536 (relayedOf log)
  known : ∀ p, (s.known p).Holds 8192 (notedOf p log)
  unsent : ∀ source peers authorization r, s.relayInventory source peers authorization = some r →
    ∀ command ∈ r.2, ∃ p, command = .send p (.inv [authorization.item]) .gossip ∧
      some p ≠ source ∧ ¬s.peerKnows p authorization.item
  spaced : ∀ earlier between later p x,
    log = earlier ++ .announced p x :: (between ++ .announced p x :: later) →
    (∃ others : List InventoryItem, others.Nodup ∧ 65536 ≤ others.length ∧
      ∀ y ∈ others, y ≠ x ∧ .relayed y ∈ between) ∧
    ∃ others : List InventoryItem, others.Nodup ∧ 8192 ≤ others.length ∧
      ∀ y ∈ others, y ≠ x ∧ .noted p y ∈ between

theorem relay_spaced (run : RelayRun log s) : RelaySpaced log s := by
  obtain ⟨hkept, hgrouped⟩ := run.kept
  constructor
  case total =>
    intro call
    obtain ⟨s', events, hstep, -⟩ := hkept.step call
    rw [hstep]
    rfl
  case recent => exact hkept.recentRelay
  case known => exact hkept.known
  case unsent =>
    intro source peers authorization r hr command hcommand
    obtain ⟨-, -, s', receivers, -, -, hrelay, -, -, hreceivers⟩ :=
      hkept.relayInventory source peers authorization
    obtain rfl := Option.some.inj (hr.symm.trans hrelay)
    obtain ⟨p, hp, rfl⟩ := List.mem_map.mp hcommand
    exact ⟨p, rfl, hreceivers p hp⟩
  case spaced =>
    intro earlier between later p x hlog
    exact ⟨relayed_between hkept hgrouped hlog, noted_between hkept hgrouped hlog⟩

/-- Two transactions are relayed, each to the peers that do not know it, and the first of them
once more, to nobody. -/
theorem relay_spaced_sample : ∃ log s, RelayRun log s ∧
    log = [.noted 1 ⟨.transaction, 7⟩, .relayed ⟨.transaction, 7⟩, .noted 2 ⟨.transaction, 7⟩,
      .announced 2 ⟨.transaction, 7⟩, .noted 2 ⟨.transaction, 8⟩, .relayed ⟨.transaction, 8⟩,
      .noted 1 ⟨.transaction, 8⟩, .announced 1 ⟨.transaction, 8⟩] ∧
    s.peerKnows 1 ⟨.transaction, 8⟩ ∧ RelaySpaced log s := by
  have hfirst : RelayRun _ _ :=
    .step (.relayInventory (some 1) [2, 1, 2] ⟨⟨.transaction, 7⟩⟩) .start rfl
  have hsecond : RelayRun _ _ :=
    .step (.relayInventory (some 2) [1, 2] ⟨⟨.transaction, 8⟩⟩) hfirst rfl
  have hagain : RelayRun _ _ :=
    .step (.relayInventory none [1, 2] ⟨⟨.transaction, 7⟩⟩) hsecond rfl
  exact ⟨_, _, hagain, by decide +kernel, by decide +kernel, relay_spaced hagain⟩

end Oregon.Relay
