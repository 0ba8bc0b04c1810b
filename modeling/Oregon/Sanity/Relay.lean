import Oregon.Lib.Fifo
import Oregon.Lib.Maps
import Oregon.Spec.Relay

/-! The log of a relay: which items were newly relayed, newly noted for a peer and announced to
a peer, in the order in which it happened. Every inventory holds the last of the items that the
log has for it. -/

namespace Oregon.Relay

open Lib Protocol Peer
open Std (ExtTreeMap ExtTreeSet)

inductive RelayEvent where
  | noted (peerId : PeerId) (item : InventoryItem)
  | relayed (item : InventoryItem)
  | announced (peerId : PeerId) (item : InventoryItem)
  deriving DecidableEq, Repr

def RelayEvent.item : RelayEvent → InventoryItem
  | .noted _ item | .relayed item | .announced _ item => item

/-- The items that were newly relayed. -/
def relayedOf (log : List RelayEvent) : List InventoryItem :=
  log.filterMap fun
    | .relayed item => some item
    | _ => none

/-- The items that were newly noted for a peer. -/
def notedOf (peerId : PeerId) (log : List RelayEvent) : List InventoryItem :=
  log.filterMap fun
    | .noted p item => if p = peerId then some item else none
    | _ => none

/-- An announcement is noted before it is sent. -/
def announcedBy : PeerCommand → List RelayEvent
  | .send peerId (.inv [item]) .gossip => [.noted peerId item, .announced peerId item]
  | _ => []

inductive RelayCall where
  | notePeerInventory (peerId : PeerId) (item : InventoryItem)
  | relayInventory (sourcePeer : Option PeerId) (peers : List PeerId)
      (authorization : ValidatedRelay)
  deriving DecidableEq, Repr

/-- What the log has of an insertion, which may find the item already there. -/
def insertion (inserted : Bool) (event : RelayEvent) : List RelayEvent :=
  if inserted then [event] else []

/-- A call of the relay with what it adds to the log. -/
def RelayState.step (s : RelayState) : RelayCall → Option (RelayState × List RelayEvent)
  | .notePeerInventory peerId item => do
    let r ← s.notePeerInventory peerId item
    some (r.1, insertion r.2 (.noted peerId item))
  | .relayInventory sourcePeer peers authorization => do
    let item := authorization.item
    let noted ← s.noteSource sourcePeer item
    let recent ← noted.1.noteRecentRelay item
    let r ← s.relayInventory sourcePeer peers authorization
    some (r.1, (sourcePeer.elim [] fun p => insertion noted.2 (.noted p item)) ++
      (insertion recent.2 (.relayed item) ++ r.2.flatMap announcedBy))

/-- The log of any calls, and the state after them. -/
inductive RelayRun : List RelayEvent → RelayState → Prop
  | start : RelayRun [] .default
  | step {log events : List RelayEvent} {s s' : RelayState} (call : RelayCall)
      (run : RelayRun log s) (h : s.step call = some (s', events)) : RelayRun (log ++ events) s'

section Projections

variable (log log' : List RelayEvent) (peerId : PeerId)

@[simp] theorem relayedOf_append :
    relayedOf (log ++ log') = relayedOf log ++ relayedOf log' := List.filterMap_append ..

@[simp] theorem notedOf_append :
    notedOf peerId (log ++ log') = notedOf peerId log ++ notedOf peerId log' :=
  List.filterMap_append ..

theorem mem_relayedOf {item : InventoryItem} : item ∈ relayedOf log ↔ .relayed item ∈ log := by
  rw [relayedOf, List.mem_filterMap]
  grind

theorem mem_notedOf {item : InventoryItem} : item ∈ notedOf peerId log ↔ .noted peerId item ∈ log := by
  rw [notedOf, List.mem_filterMap]
  grind

end Projections

namespace BoundedInventory

/-- An inventory that holds the last of the items that were inserted, each of them once. -/
structure Holds (b : BoundedInventory) (k : ℕ) (inserted : List InventoryItem) : Prop where
  capacity : b.capacity = k
  order : b.order = recent k inserted
  members : ∀ item, item ∈ b.members ↔ item ∈ b.order

variable {b : BoundedInventory} {capacity : ℕ} {inserted : List InventoryItem}

theorem holds_new (capacity : ℕ) : (new capacity).Holds capacity [] where
  capacity := rfl
  order := by simp [new, recent]
  members := by simp [new]

theorem Holds.evict (h : b.Holds capacity inserted) (hpos : 0 < capacity)
    (hfresh : Fresh capacity inserted) : ∃ b', b.evict = some b' ∧ b'.capacity = capacity ∧
      (∀ item, b'.order ++ [item] = recent capacity (inserted ++ [item])) ∧
      ∀ item, item ∈ b'.members ↔ item ∈ b'.order := by
  have hlength : b.order.length = min capacity inserted.length := by rw [h.order, length_recent]
  rw [BoundedInventory.evict, h.capacity]
  split_ifs with hfull
  case neg =>
    refine ⟨b, rfl, h.capacity, fun item => ?_, h.members⟩
    rw [recent_snoc_of_lt (by omega), h.order]
  have hnodup := hfresh.nodup_recent hpos
  rw [← h.order] at hnodup
  cases horder : b.order with
  | nil => grind
  | cons oldest rest =>
    rw [horder, List.nodup_cons] at hnodup
    refine ⟨_, rfl, rfl, fun item => ?_, fun item => ?_⟩
    · rw [recent_snoc_of_le hpos (by omega), ← h.order, horder]
      rfl
    · rw [ExtTreeSet.mem_erase, h.members, horder, List.mem_cons, ne_eq,
        Std.LawfulEqOrd.compare_eq_iff_eq]
      grind

/-- An insertion finds the item or makes it the newest; the `expect` of the source holds. -/
theorem Holds.insert (h : b.Holds capacity inserted) (hpos : 0 < capacity)
    (hfresh : Fresh capacity inserted) (item : InventoryItem) :
    (item ∈ b.members ∧ b.insert item = some (b, false)) ∨
      (item ∉ b.members ∧ ∃ b', b.insert item = some (b', true) ∧
        b'.Holds capacity (inserted ++ [item]) ∧ Fresh capacity (inserted ++ [item])) := by
  rw [BoundedInventory.insert]
  split_ifs with hmem
  · exact .inl ⟨hmem, rfl⟩
  · obtain ⟨b', hevict, hcapacity, horder, hmembers⟩ := h.evict hpos hfresh
    refine .inr ⟨hmem,
      { b' with members := b'.members.insert item, order := b'.order ++ [item] },
      by rw [hevict]; rfl, ⟨hcapacity, horder item, fun x => ?_⟩, ?_⟩
    · grind
    · refine hfresh.snoc ?_
      rwa [← h.order, ← h.members]

end BoundedInventory

/-- Every inventory holds what the log has for it. -/
structure Kept (log : List RelayEvent) (s : RelayState) : Prop where
  recentRelay : s.recentRelay.Holds MAX_RECENT_RELAY_CACHE (relayedOf log)
  relayed : Fresh MAX_RECENT_RELAY_CACHE (relayedOf log)
  known : ∀ p, (s.known p).Holds MAX_KNOWN_INVENTORY_PER_PEER (notedOf p log)
  noted : ∀ p, Fresh MAX_KNOWN_INVENTORY_PER_PEER (notedOf p log)

variable {log : List RelayEvent} {s : RelayState} {p : PeerId} {item : InventoryItem}

theorem kept_default : Kept [] .default where
  recentRelay := BoundedInventory.holds_new _
  relayed := .nil
  known p := by
    exact BoundedInventory.holds_new _
  noted _ := .nil

theorem peerKnows_iff (s : RelayState) (p : PeerId) (item : InventoryItem) :
    s.peerKnows p item ↔ item ∈ (s.known p).members := by
  rw [RelayState.peerKnows, RelayState.known]
  cases s.knownByPeer[p]? with
  | none => simp [BoundedInventory.new]
  | some b => simp [BoundedInventory.contains]

theorem Kept.announced (h : Kept log s) (p : PeerId) (item : InventoryItem) :
    Kept (log ++ [.announced p item]) s := by
  have hrelayed : relayedOf (log ++ [.announced p item]) = relayedOf log := by
    rw [relayedOf_append]
    exact List.append_nil _
  have hnoted : ∀ q, notedOf q (log ++ [.announced p item]) = notedOf q log := by
    intro q
    rw [notedOf_append]
    exact List.append_nil _
  exact ⟨hrelayed ▸ h.recentRelay, hrelayed ▸ h.relayed, fun q => hnoted q ▸ h.known q,
    fun q => hnoted q ▸ h.noted q⟩

theorem Kept.notePeerInventory (h : Kept log s) (p : PeerId) (item : InventoryItem) :
    ∃ s' inserted, s.notePeerInventory p item = some (s', inserted) ∧
      Kept (log ++ insertion inserted (.noted p item)) s' ∧
      (inserted = false ↔ s.peerKnows p item) ∧
      ∀ q, q ≠ p → ∀ x, s'.peerKnows q x = s.peerKnows q x := by
  have hothers : ∀ (b : BoundedInventory) q, q ≠ p →
      ({ s with knownByPeer := s.knownByPeer.insert p b } : RelayState).knownByPeer[q]? =
        s.knownByPeer[q]? := fun b q hq => by rw [lookup_insert, if_neg (Ne.symm hq)]
  rw [peerKnows_iff]
  obtain ⟨hmem, hinsert⟩ | ⟨hmem, b, hinsert, hholds, hfresh⟩ :=
    (h.known p).insert (by decide) (h.noted p) item
  · refine ⟨_, false, by rw [RelayState.notePeerInventory, hinsert]; rfl, ?_, by simp [hmem], ?_⟩
    · have hsame : ∀ q, ({ s with knownByPeer := s.knownByPeer.insert p (s.known p) } :
          RelayState).known q = s.known q := by
        intro q
        by_cases hq : q = p
        · subst hq
          simp [RelayState.known]
        · rw [RelayState.known, hothers _ q hq, RelayState.known]
      simp only [insertion, Bool.false_eq_true, if_false, List.append_nil]
      exact ⟨h.recentRelay, h.relayed, fun q => hsame q ▸ h.known q, h.noted⟩
    · grind [RelayState.peerKnows]
  · refine ⟨_, true, by rw [RelayState.notePeerInventory, hinsert]; rfl, ?_, by simp [hmem], ?_⟩
    · have hrelayed : relayedOf (log ++ [.noted p item]) = relayedOf log := by
        rw [relayedOf_append]
        exact List.append_nil _
      have hnoted : notedOf p (log ++ [.noted p item]) = notedOf p log ++ [item] := by
        simp [notedOf]
      have hnoted' : ∀ q, q ≠ p → notedOf q (log ++ [.noted p item]) = notedOf q log := by
        intro q hq
        simp [notedOf, Ne.symm hq]
      simp only [insertion, if_true]
      refine ⟨hrelayed ▸ h.recentRelay, hrelayed ▸ h.relayed, fun q => ?_, fun q => ?_⟩
      · by_cases hq : q = p
        · grind [RelayState.known]
        · rw [hnoted' q hq, RelayState.known, hothers b q hq]
          exact h.known q
      · by_cases hq : q = p
        · subst hq
          rwa [hnoted]
        · rw [hnoted' q hq]
          exact h.noted q
    · grind [RelayState.peerKnows]

theorem Kept.noteRecentRelay (h : Kept log s) (item : InventoryItem) :
    ∃ s' inserted, s.noteRecentRelay item = some (s', inserted) ∧
      Kept (log ++ insertion inserted (.relayed item)) s' ∧ s'.knownByPeer = s.knownByPeer := by
  obtain ⟨hmem, hinsert⟩ | ⟨hmem, b, hinsert, hholds, hfresh⟩ :=
    h.recentRelay.insert (by decide) h.relayed item
  · refine ⟨_, false, by rw [RelayState.noteRecentRelay, hinsert]; rfl, ?_, rfl⟩
    simp only [insertion, Bool.false_eq_true, if_false, List.append_nil]
    exact h
  · refine ⟨{ s with recentRelay := b }, true, by rw [RelayState.noteRecentRelay, hinsert]; rfl,
      ?_, rfl⟩
    have hrelayed : relayedOf (log ++ [.relayed item]) = relayedOf log ++ [item] := by
      rw [relayedOf_append]
      rfl
    have hnoted : ∀ q, notedOf q (log ++ [.relayed item]) = notedOf q log := by
      intro q
      rw [notedOf_append]
      exact List.append_nil _
    exact ⟨hrelayed ▸ hholds, hrelayed ▸ hfresh, fun q => hnoted q ▸ h.known q,
      fun q => hnoted q ▸ h.noted q⟩

theorem isChain_lt {l : List PeerId} (hsorted : l.Pairwise (· ≤ ·)) (hne : l.IsChain (· ≠ ·)) :
    l.IsChain (· < ·) := by
  induction l with
  | nil => exact .nil
  | cons a l ih =>
    cases l with
    | nil => exact .singleton a
    | cons b l => grind

theorem nodup_distinct (peers : List PeerId) : (RelayState.distinct peers).Nodup := by
  have hsorted := (List.pairwise_insertionSort (· ≤ ·) peers).sublist
    (List.destutter_sublist (· ≠ ·) _)
  have hlt := isChain_lt hsorted (List.isChain_destutter (· ≠ ·) _)
  exact (List.isChain_iff_pairwise.mp hlt).imp fun h => h.ne

/-- The loop sends the item to peers that do not have it and are not its source, and notes it
for each of them. -/
theorem Kept.announce (source : Option PeerId) (item : InventoryItem) {peers : List PeerId}
    (h : Kept log s) (hnodup : peers.Nodup) :
    ∃ (s' : RelayState) (receivers : List PeerId), RelayState.announce source item peers s =
        some (s', receivers.map fun p => .send p (.inv [item]) .gossip) ∧
      Kept (log ++ receivers.flatMap fun p => [.noted p item, .announced p item]) s' ∧
      ∀ p ∈ receivers, p ∈ peers ∧ some p ≠ source ∧ ¬s.peerKnows p item := by
  induction peers generalizing log s with
  | nil => exact ⟨s, [], rfl, by simpa using h, by simp⟩
  | cons peer peers ih =>
    obtain ⟨hpeer, hnodup⟩ := List.nodup_cons.mp hnodup
    rw [RelayState.announce]
    split_ifs with hskip
    · grind
    · rw [not_or] at hskip
      obtain ⟨s₁, inserted, hnote, hkept, hinserted, hothers⟩ := h.notePeerInventory peer item
      obtain rfl : inserted = true := by
        cases inserted with
        | true => rfl
        | false => exact absurd (hinserted.mp rfl) hskip.2
      obtain ⟨s', receivers, hannounce, hkept', hreceivers⟩ := ih (hkept.announced peer item) hnodup
      refine ⟨s', peer :: receivers, by rw [hnote]; simp [hannounce], ?_, fun p hp => ?_⟩
      · simpa [insertion] using hkept'
      · grind

theorem Kept.noteSource (h : Kept log s) (source : Option PeerId) (item : InventoryItem) :
    ∃ s' inserted, s.noteSource source item = some (s', inserted) ∧
      Kept (log ++ source.elim [] fun p => insertion inserted (.noted p item)) s' ∧
      ∀ q, some q ≠ source → ∀ x, s'.peerKnows q x = s.peerKnows q x := by
  cases source with
  | none => exact ⟨s, false, rfl, by simpa using h, fun q _ x => rfl⟩
  | some p =>
    obtain ⟨s', inserted, hnote, hkept, -, hothers⟩ := h.notePeerInventory p item
    exact ⟨s', inserted, hnote, hkept, fun q hq => hothers q fun heq => hq (congrArg some heq)⟩

/-- What a relay of an item does: it notes the item for the source, and if the item is newly
relayed, announces it to peers that do not have it and are not the source. -/
theorem Kept.relayInventory (h : Kept log s) (source : Option PeerId) (peers : List PeerId)
    (authorization : ValidatedRelay) :
    ∃ (noted recent : RelayState × Bool) (s' : RelayState) (receivers : List PeerId),
      s.noteSource source authorization.item = some noted ∧
      noted.1.noteRecentRelay authorization.item = some recent ∧
      s.relayInventory source peers authorization =
        some (s', receivers.map fun p => .send p (.inv [authorization.item]) .gossip) ∧
      (recent.2 = false → receivers = []) ∧
      Kept (log ++ ((source.elim [] fun p => insertion noted.2 (.noted p authorization.item)) ++
        (insertion recent.2 (.relayed authorization.item) ++
          receivers.flatMap fun p =>
            [.noted p authorization.item, .announced p authorization.item]))) s' ∧
      ∀ p ∈ receivers, some p ≠ source ∧ ¬s.peerKnows p authorization.item := by
  obtain ⟨s₁, noted, hsource, hkept₁, hothers⟩ := h.noteSource source authorization.item
  obtain ⟨s₂, recent, hrecent, hkept₂, hknown⟩ := hkept₁.noteRecentRelay authorization.item
  cases recent with
  | false =>
    refine ⟨(s₁, noted), (s₂, false), s₂, [], hsource, hrecent, ?_, fun _ => rfl, ?_, by simp⟩
    · simp [RelayState.relayInventory, hsource, hrecent]
    · simpa [List.append_assoc] using hkept₂
  | true =>
    obtain ⟨s', receivers, hannounce, hkept, hreceivers⟩ :=
      hkept₂.announce source authorization.item (nodup_distinct peers)
    grind [RelayState.relayInventory, RelayState.peerKnows]

end Oregon.Relay
