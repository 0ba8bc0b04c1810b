import Oregon.Lib.Maps
import Oregon.Spec.Scheduler

/-! What every sequence of calls keeps of a scheduler: requests and buffered bodies belong
to targets that are still to be submitted, the counters agree with the requests, the limits
hold, and the bodies submitted so far are the targets from the first on, in order. -/

namespace Oregon.Sync

open Lib Std
open Peer (PeerId)

def SyncAction.isRequest : SyncAction → Bool
  | .requestBlock _ _ => true
  | _ => false

section Actions

variable [Crypto]

/-- The id of the body that an action submits. -/
def SyncAction.submittedId : SyncAction → Option Hash256
  | .submitBlock _ block => some block.header.blockId
  | _ => none

theorem submittedId_requests {actions : List SyncAction} (h : ∀ a ∈ actions, a.isRequest) :
    actions.filterMap SyncAction.submittedId = [] := by
  refine List.filterMap_eq_nil_iff.mpr fun a ha => ?_
  have := h a ha
  cases a with
  | requestBlock => rfl
  | submitBlock => cases this
  | stalled => cases this

end Actions

theorem indexTargets_ok {targets : List Hash256} {p : ℕ} {index : ExtTreeMap Hash256 ℕ}
    (hnodup : targets.Nodup) (hfresh : ∀ id ∈ targets, id ∉ index) :
    ∃ out, BlockScheduler.indexTargets p targets index = .ok out ∧
      ∀ id i, out[id]? = some i ↔
        index[id]? = some i ∨ ∃ k, targets[k]? = some id ∧ i = p + k := by
  induction targets generalizing p index with
  | nil => exact ⟨index, rfl, by simp⟩
  | cons target rest ih =>
    obtain ⟨htarget, hrest⟩ := List.nodup_cons.mp hnodup
    have hnew : target ∉ index := hfresh target (List.mem_cons_self ..)
    have hlater : ∀ id ∈ rest, id ∉ index.insert target p := by grind
    obtain ⟨out, hout, hspec⟩ := ih (p := p + 1) hrest hlater
    refine ⟨out, by rw [BlockScheduler.indexTargets, if_neg hnew, hout], fun id i => ?_⟩
    rw [hspec, lookup_insert]
    constructor
    · rintro (h | ⟨k, hk, rfl⟩)
      · by_cases heq : target = id
        · simp_all
        · exact .inl (by rwa [if_neg heq] at h)
      · exact .inr ⟨k + 1, by rwa [List.getElem?_cons_succ], by omega⟩
    · rintro (h | ⟨k, hk, rfl⟩)
      · have hne : target ≠ id := by
          rintro rfl
          rw [(notMem_iff_lookup index target).mp hnew] at h
          cases h
        exact .inl (by rwa [if_neg hne])
      · cases k with
        | zero =>
          rw [List.getElem?_cons_zero, Option.some.injEq] at hk
          exact .inl (by rw [if_pos hk, Nat.add_zero])
        | succ k => exact .inr ⟨k, by rwa [List.getElem?_cons_succ] at hk, by omega⟩

namespace BlockScheduler

/-- The targets at or after the submission point. -/
def pending (s : BlockScheduler) : List Hash256 := s.targets.drop s.nextSubmit

/-- How many requests a peer owns. -/
def owned (s : BlockScheduler) (peerId : PeerId) : ℕ :=
  mapSum (fun owner => if owner = peerId then 1 else 0) s.inFlight

variable [Crypto]

structure Sound (s : BlockScheduler) (emitted : List SyncAction) : Prop where
  distinct : s.targets.Nodup
  index : ∀ (id : Hash256) (i : ℕ), s.targetIndex[id]? = some i ↔ s.targets[i]? = some id
  requested : ∀ id ∈ s.inFlight, id ∈ s.pending ∧ id ∉ s.buffered ∧ id ∉ s.stalled
  waiting : ∀ id b, s.buffered[id]? = some b → id ∈ s.pending ∧ b.block.header.blockId = id
  reported : ∀ id, id ∈ s.stalled ↔ .stalled id ∈ emitted
  submitted : emitted.filterMap SyncAction.submittedId = s.targets.take s.nextSubmit
  inFlight_le : s.inFlight.size ≤ MAX_IN_FLIGHT_BLOCKS_GLOBAL
  counted : ∀ peerId, s.inFlightForPeer peerId = s.owned peerId
  owned_le : ∀ peerId, s.owned peerId ≤ MAX_IN_FLIGHT_BLOCKS_PEER
  buffered_le : s.buffered.size ≤ MAX_BUFFERED_BLOCKS

/-- Every target that is still to be submitted is under way or given up. -/
def Tracked (s : BlockScheduler) : Prop :=
  ∀ id ∈ s.pending, id ∈ s.inFlight ∨ id ∈ s.buffered ∨ id ∈ s.stalled ∨
    s.attemptsOf id < MAX_BLOCK_ATTEMPTS

theorem exists_new {targets : List Hash256} (h : targets.Nodup) :
    ∃ start, new targets = .ok start ∧ start.Sound [] ∧ start.Tracked := by
  have hempty : ∀ id ∈ targets, id ∉ (∅ : ExtTreeMap Hash256 ℕ) := by simp
  obtain ⟨out, hout, hspec⟩ := indexTargets_ok (p := 0) h hempty
  refine ⟨_, by rw [new, hout]; rfl, ⟨h, fun id i => ?_, by simp, by simp, by simp, rfl, ?_, ?_, ?_, ?_⟩,
    fun id _ => ?_⟩
  · simp [hspec]
  · exact Nat.zero_le _
  · intro peerId
    rfl
  · exact fun _ => Nat.zero_le _
  · exact Nat.zero_le _
  · refine .inr (.inr (.inr ?_))
    simp [attemptsOf, MAX_BLOCK_ATTEMPTS]

variable {s : BlockScheduler} {emitted : List SyncAction}

/-- Requests add nothing to what was submitted or reported. -/
theorem Sound.append_requests {actions : List SyncAction} (h : s.Sound emitted)
    (hactions : ∀ a ∈ actions, a.isRequest) : s.Sound (emitted ++ actions) := by
  refine { h with reported := fun id => ?_, submitted := ?_ }
  · rw [h.reported, List.mem_append]
    exact ⟨.inl, fun hmem => hmem.resolve_right fun hmem => by cases hactions _ hmem⟩
  · rw [List.filterMap_append, submittedId_requests hactions, List.append_nil, h.submitted]

omit [Crypto] in
theorem request_inFlightForPeer (peerId other : PeerId) (blockId : Hash256) :
    (s.request peerId blockId).inFlightForPeer other =
      if peerId = other then s.inFlightForPeer peerId + 1 else s.inFlightForPeer other := by
  simp only [inFlightForPeer, request, lookup_insert]
  split_ifs <;> rfl

omit [Crypto] in
theorem request_attemptsOf (peerId : PeerId) (blockId other : Hash256) :
    (s.request peerId blockId).attemptsOf other =
      if blockId = other then s.attemptsOf blockId + 1 else s.attemptsOf other := by
  simp only [attemptsOf, request, lookup_insert]
  split_ifs <;> rfl

omit [Crypto] in
theorem request_owned {peerId other : PeerId} {blockId : Hash256} (h : blockId ∉ s.inFlight) :
    (s.request peerId blockId).owned other =
      (if peerId = other then 1 else 0) + s.owned other :=
  mapSum_insert _ peerId ((notMem_iff_lookup _ _).mp h)

theorem Sound.request {peerId : PeerId} {blockId : Hash256} (h : s.Sound emitted)
    (hpending : blockId ∈ s.pending) (hskip : ¬ s.skips blockId)
    (hglobal : s.inFlight.size < MAX_IN_FLIGHT_BLOCKS_GLOBAL)
    (hpeer : s.inFlightForPeer peerId < MAX_IN_FLIGHT_BLOCKS_PEER) :
    (s.request peerId blockId).Sound emitted := by
  simp only [skips, not_or] at hskip
  obtain ⟨hflight, hbuffered, hstalled, -⟩ := hskip
  refine { h with requested := ?_, inFlight_le := ?_, counted := ?_, owned_le := ?_ }
  · intro id hid
    rcases mem_insert_iff.mp hid with rfl | hid
    · exact ⟨hpending, hbuffered, hstalled⟩
    · exact h.requested id hid
  · have hsize : (s.request peerId blockId).inFlight.size = s.inFlight.size + 1 :=
      size_insert_of_notMem peerId hflight
    omega
  · intro other
    rw [request_inFlightForPeer, request_owned hflight, h.counted, h.counted]
    grind
  · intro other
    have hother := h.owned_le other
    rw [h.counted] at hpeer
    grind [request_owned]

omit [Crypto] in
theorem Tracked.request {peerId : PeerId} {blockId : Hash256} (h : s.Tracked) :
    (s.request peerId blockId).Tracked := by
  intro id hid
  by_cases heq : blockId = id
  · exact .inl (mem_insert_iff.mpr (.inl heq))
  · rw [request_attemptsOf, if_neg heq]
    exact (h id hid).imp_left fun hmem => mem_insert_iff.mpr (.inr hmem)

/-- What the loop of `schedule` leaves, by induction on the targets it still has to pass. -/
theorem scheduleFrom_spec {peers : List SyncPeer} {ids : List Hash256} (h : s.Sound emitted)
    (hids : ∀ id ∈ ids, id ∈ s.pending) :
    (scheduleFrom peers ids s).1.Sound emitted ∧
      (s.Tracked → (scheduleFrom peers ids s).1.Tracked) ∧
      ∀ a ∈ (scheduleFrom peers ids s).2, a.isRequest := by
  induction ids generalizing s with
  | nil => exact ⟨h, id, by simp [scheduleFrom]⟩
  | cons blockId rest ih =>
    have hrest := fun id hid => hids id (List.mem_cons_of_mem _ hid)
    rw [scheduleFrom]
    split_ifs with hglobal hskip
    · exact ⟨h, id, by simp⟩
    · exact ih h hrest
    · split
      · exact ⟨h, id, by simp⟩
      · next peer hpeer =>
        have hfree := List.find?_some hpeer
        rw [decide_eq_true_eq] at hfree
        have hsound := h.request (hids blockId (List.mem_cons_self ..)) hskip
          (Nat.lt_of_not_le hglobal) hfree
        obtain ⟨hsound', htracked, hactions⟩ := ih hsound hrest
        exact ⟨hsound', fun ht => htracked ht.request, List.forall_mem_cons.mpr ⟨rfl, hactions⟩⟩

theorem schedule_spec (peers : List SyncPeer) (h : s.Sound emitted) :
    (s.schedule peers).1.Sound (emitted ++ (s.schedule peers).2) ∧
      (s.Tracked → (s.schedule peers).1.Tracked) := by
  simp only [schedule]
  split_ifs with hnone
  · rw [List.append_nil]
    exact ⟨h, id⟩
  · obtain ⟨hsound, htracked, hactions⟩ := scheduleFrom_spec h fun _ hid => hid
    exact ⟨hsound.append_requests hactions, htracked⟩

section Release

variable (s : BlockScheduler) (blockId : Hash256) (peerId : PeerId)

omit [Crypto]

@[simp] theorem release_targets : (s.release blockId peerId).targets = s.targets := rfl

@[simp] theorem release_targetIndex :
    (s.release blockId peerId).targetIndex = s.targetIndex := rfl

@[simp] theorem release_nextSubmit : (s.release blockId peerId).nextSubmit = s.nextSubmit := rfl

@[simp] theorem release_buffered : (s.release blockId peerId).buffered = s.buffered := rfl

end Release

omit [Crypto] in
theorem release_inFlightForPeer (peerId other : PeerId) (blockId : Hash256) :
    (s.release blockId peerId).inFlightForPeer other =
      if peerId = other then s.inFlightForPeer peerId - 1 else s.inFlightForPeer other := by
  simp only [inFlightForPeer, release]
  cases hcount : s.inFlightPerPeer[peerId]? with
  | none => grind
  | some count => grind

omit [Crypto] in
theorem release_owned {peerId : PeerId} {blockId : Hash256}
    (h : s.inFlight[blockId]? = some peerId) (other : PeerId) :
    (s.release blockId peerId).owned other + (if peerId = other then 1 else 0) = s.owned other :=
  mapSum_erase _ h

theorem Sound.release {peerId : PeerId} {blockId : Hash256} (h : s.Sound emitted)
    (howner : s.inFlight[blockId]? = some peerId) : (s.release blockId peerId).Sound emitted := by
  refine { h with requested := ?_, inFlight_le := ?_, counted := ?_, owned_le := ?_ }
  · exact fun id hid => h.requested id (mem_erase_iff.mp hid).2
  · have hsize : (s.release blockId peerId).inFlight.size + 1 = s.inFlight.size :=
      size_erase_of_mem ((mem_iff_lookup _ _).mpr ⟨_, howner⟩)
    have := h.inFlight_le
    omega
  · intro other
    have howned := release_owned howner other
    rw [release_inFlightForPeer, h.counted, h.counted]
    grind
  · intro other
    have howned := release_owned howner other
    have := h.owned_le other
    omega

/-- A request that is given up, or released with attempts left, is not lost. -/
theorem onTimeout_spec (peerId : PeerId) (blockId : Hash256) (h : s.Sound emitted) :
    (s.onTimeout peerId blockId).1.Sound (emitted ++ (s.onTimeout peerId blockId).2) ∧
      (s.Tracked → (s.onTimeout peerId blockId).1.Tracked) := by
  by_cases howner : s.inFlight[blockId]? = some peerId
  · have hmem : blockId ∈ s.inFlight := (mem_iff_lookup _ _).mpr ⟨_, howner⟩
    obtain ⟨-, -, hstalled⟩ := h.requested blockId hmem
    have hsound := h.release howner
    by_cases hspent : MAX_BLOCK_ATTEMPTS ≤ s.attemptsOf blockId
    · have hcall : s.onTimeout peerId blockId =
          ({ s.release blockId peerId with stalled := s.stalled.insert blockId },
            [.stalled blockId]) := by
        rw [onTimeout, if_pos howner]
        exact if_pos ⟨hspent, hstalled⟩
      rw [hcall]
      refine ⟨{ hsound with requested := ?_, reported := ?_, submitted := ?_ }, fun ht id hid => ?_⟩
      · intro id hid
        obtain ⟨hpending, hbuffered, hid'⟩ := hsound.requested id hid
        refine ⟨hpending, hbuffered, fun hmem => ?_⟩
        rcases mem_setInsert_iff.mp hmem with heq | hmem
        · exact (mem_erase_iff.mp hid).1 heq
        · exact hid' hmem
      · intro id
        rw [mem_setInsert_iff, h.reported, List.mem_append, List.mem_singleton,
          SyncAction.stalled.injEq, or_comm, eq_comm]
      · rw [List.filterMap_append, h.submitted]
        exact List.append_nil _
      · by_cases heq : blockId = id
        · exact .inr (.inr (.inl (mem_setInsert_iff.mpr (.inl heq))))
        · rcases ht id hid with hflight | hbuffered | hgiven | hleft
          · exact .inl (mem_erase_iff.mpr ⟨heq, hflight⟩)
          · exact .inr (.inl hbuffered)
          · exact .inr (.inr (.inl (mem_setInsert_iff.mpr (.inr hgiven))))
          · exact .inr (.inr (.inr hleft))
    · have hcall : s.onTimeout peerId blockId = (s.release blockId peerId, []) := by
        rw [onTimeout, if_pos howner]
        exact if_neg fun hboth => hspent hboth.1
      rw [hcall, List.append_nil]
      refine ⟨hsound, fun ht id hid => ?_⟩
      by_cases heq : blockId = id
      · exact .inr (.inr (.inr (heq ▸ Nat.lt_of_not_le hspent)))
      · exact (ht id hid).imp_left fun hflight => mem_erase_iff.mpr ⟨heq, hflight⟩
  · rw [onTimeout, if_neg howner, List.append_nil]
    exact ⟨h, id⟩

/-- The scheduler once the next target is submitted. -/
def passed (s : BlockScheduler) (expected : Hash256) : BlockScheduler :=
  { s with buffered := s.buffered.erase expected, nextSubmit := s.nextSubmit + 1 }

/-- One turn of the submission loop. -/
theorem Sound.submit {expected : Hash256} {rest : List Hash256} {b : BufferedBlock}
    (h : s.Sound emitted) (hpending : s.pending = expected :: rest)
    (hb : s.buffered[expected]? = some b) :
    (s.passed expected).Sound (emitted ++ [.submitBlock b.source b.block]) ∧
      (s.Tracked → (s.passed expected).Tracked) ∧ (s.passed expected).pending = rest := by
  have hpassed : (s.passed expected).pending = rest := by
    change s.targets.drop (s.nextSubmit + 1) = rest
    rw [← List.tail_drop, ← pending, hpending, List.tail_cons]
  have hmem : expected ∈ s.buffered := (mem_iff_lookup _ _).mpr ⟨b, hb⟩
  have hnodup : expected ∉ rest := by
    have := h.distinct.sublist (List.drop_sublist s.nextSubmit s.targets)
    rw [← pending, hpending, List.nodup_cons] at this
    exact this.1
  have hlater : ∀ id ∈ s.pending, id ≠ expected → id ∈ rest := by simp_all
  refine ⟨{ h with
    requested := ?_, waiting := ?_, reported := ?_, submitted := ?_, buffered_le := ?_ }, ?_, hpassed⟩
  · intro id hid
    obtain ⟨hid', hbuffered, hstalled⟩ := h.requested id hid
    refine ⟨?_, fun hmem => hbuffered (mem_erase_iff.mp hmem).2, hstalled⟩
    grind
  · intro id b' hid
    rw [passed, lookup_erase] at hid
    split_ifs at hid with heq
    obtain ⟨hid', hkey⟩ := h.waiting id b' hid
    grind
  · intro id
    have hid := h.reported id
    simpa [passed] using hid
  · have hlen : s.nextSubmit < s.targets.length := by
      by_contra hge
      rw [pending, List.drop_eq_nil_of_le (Nat.le_of_not_lt hge)] at hpending
      cases hpending
    have hget : s.targets[s.nextSubmit] = expected := by grind [List.getElem_cons_drop, pending]
    change _ = s.targets.take (s.nextSubmit + 1)
    rw [List.filterMap_append, h.submitted, List.take_succ_eq_append_getElem hlen, hget]
    simp [SyncAction.submittedId, (h.waiting expected b hb).2]
  · have hsize : (s.passed expected).buffered.size + 1 = s.buffered.size := size_erase_of_mem hmem
    have hle := h.buffered_le
    omega
  · intro ht id hid
    rw [hpassed] at hid
    have hne : expected ≠ id := fun heq => hnodup (heq ▸ hid)
    rcases ht id (hpending ▸ List.mem_cons_of_mem _ hid) with hflight | hbuffered | hrest
    · exact .inl hflight
    · exact .inr (.inl (mem_erase_iff.mpr ⟨hne, hbuffered⟩))
    · exact .inr (.inr hrest)

/-- The submission loop, by induction on the targets that are left. -/
theorem drain_spec {ids : List Hash256} (h : s.Sound emitted) (hids : s.pending = ids) :
    (drain ids s).1.Sound (emitted ++ (drain ids s).2) ∧
      (s.Tracked → (drain ids s).1.Tracked) := by
  induction ids generalizing s emitted with
  | nil =>
    rw [drain, List.append_nil]
    exact ⟨h, id⟩
  | cons expected rest ih =>
    rw [drain]
    cases hb : s.buffered[expected]? with
    | none =>
      rw [List.append_nil]
      exact ⟨h, id⟩
    | some b =>
      obtain ⟨hsound, htracked, hpending⟩ := h.submit hids hb
      obtain ⟨hsound', htracked'⟩ := ih hsound hpending
      rw [List.append_assoc] at hsound'
      exact ⟨hsound', fun ht => htracked' (htracked ht)⟩

end BlockScheduler

end Oregon.Sync
