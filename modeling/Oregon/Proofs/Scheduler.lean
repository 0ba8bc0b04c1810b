import Oregon.Sanity.Scheduler
import Oregon.Sanity.Sample

/-! No target of a download is lost, as long as every body that its peer delivers finds
room in the buffer or can be asked for again. The buffer is checked before it is drained,
so a full buffer also turns away the one body that would empty it. -/

namespace Oregon.Sync

open Lib Std
open Peer (PeerId)

namespace BlockScheduler

variable [Crypto]

/-- Every target at or after the submission point is in flight, buffered, can be asked for
once more, or was reported as stalled. -/
def NoneLost (s : BlockScheduler) (emitted : List SyncAction) : Prop :=
  ∀ id ∈ s.targets.drop s.nextSubmit, id ∈ s.inFlight ∨ id ∈ s.buffered ∨
    (s.attemptsOf id < MAX_BLOCK_ATTEMPTS ∧ id ∉ s.stalled) ∨ .stalled id ∈ emitted

/-- A body that its owner delivers while it is the next to submit is submitted. -/
def NextKept (s : BlockScheduler) (call : SyncCall) : Prop :=
  ∀ peerId block, call = .onBlock peerId block →
    s.inFlight[block.header.blockId]? = some peerId →
    s.targets[s.nextSubmit]? = some block.header.blockId →
    .submitBlock peerId block ∈ (s.call call).2

/-- A body that its owner delivers finds room in the buffer; or it is not the next to submit
and has attempts left. -/
def Room (s : BlockScheduler) (call : SyncCall) : Prop :=
  ∀ peerId block, call = .onBlock peerId block →
    s.inFlight[block.header.blockId]? = some peerId →
    s.buffered.size < MAX_BUFFERED_BLOCKS ∨
      (s.attemptsOf block.header.blockId < MAX_BLOCK_ATTEMPTS ∧
        s.targets[s.nextSubmit]? ≠ some block.header.blockId)

variable {s : BlockScheduler} {emitted : List SyncAction} {peerId : PeerId} {block : Block}

theorem Sound.noneLost_iff (h : s.Sound emitted) : s.NoneLost emitted ↔ s.Tracked := by
  refine forall_congr' fun id => imp_congr_right fun _ => or_congr_right (or_congr_right ?_)
  rw [← h.reported]
  tauto

theorem Sound.onBlock_index (h : s.Sound emitted)
    (howner : s.inFlight[block.header.blockId]? = some peerId) :
    ∃ index, s.targetIndex[block.header.blockId]? = some index ∧ s.nextSubmit ≤ index := by
  obtain ⟨hpending, -⟩ := h.requested _ ((mem_iff_lookup _ _).mpr ⟨_, howner⟩)
  obtain ⟨i, hi⟩ := List.mem_iff_getElem?.mp hpending
  rw [pending, List.getElem?_drop] at hi
  exact ⟨s.nextSubmit + i, (h.index _ _).mpr hi, Nat.le_add_right ..⟩

theorem call_of_not_owner (h : s.inFlight[block.header.blockId]? ≠ some peerId) :
    s.call (.onBlock peerId block) = (s, []) := by
  simp only [call, onBlock, if_neg h]
  rfl

theorem Sound.onBlock_full (h : s.Sound emitted)
    (howner : s.inFlight[block.header.blockId]? = some peerId)
    (hfull : MAX_BUFFERED_BLOCKS ≤ s.buffered.size) :
    s.onBlock peerId block = (s.release block.header.blockId peerId, .error .bufferFull) := by
  obtain ⟨index, hindex, hge⟩ := h.onBlock_index howner
  rw [onBlock, if_pos howner]
  simp_all

def received (s : BlockScheduler) (peerId : PeerId) (block : Block) : BlockScheduler :=
  { s.release block.header.blockId peerId with
    buffered := s.buffered.insert block.header.blockId ⟨peerId, block⟩ }

theorem Sound.onBlock_room (h : s.Sound emitted)
    (howner : s.inFlight[block.header.blockId]? = some peerId)
    (hroom : s.buffered.size < MAX_BUFFERED_BLOCKS) :
    s.onBlock peerId block = ((drain s.pending (s.received peerId block)).1,
      .ok (drain s.pending (s.received peerId block)).2) := by
  obtain ⟨index, hindex, hge⟩ := h.onBlock_index howner
  rw [onBlock, if_pos howner]
  simp only [release_targetIndex, release_nextSubmit, release_buffered, release_targets, hindex,
    Nat.not_lt_of_le hge, Nat.not_le_of_lt hroom, if_false]
  rfl

theorem Sound.call_full (h : s.Sound emitted)
    (howner : s.inFlight[block.header.blockId]? = some peerId)
    (hfull : MAX_BUFFERED_BLOCKS ≤ s.buffered.size) :
    s.call (.onBlock peerId block) = (s.release block.header.blockId peerId, []) := by
  simp only [call, h.onBlock_full howner hfull]
  rfl

theorem Sound.call_room (h : s.Sound emitted)
    (howner : s.inFlight[block.header.blockId]? = some peerId)
    (hroom : s.buffered.size < MAX_BUFFERED_BLOCKS) :
    s.call (.onBlock peerId block) = drain s.pending (s.received peerId block) := by
  simp only [call, h.onBlock_room howner hroom]
  rfl

theorem Sound.received (h : s.Sound emitted)
    (howner : s.inFlight[block.header.blockId]? = some peerId)
    (hroom : s.buffered.size < MAX_BUFFERED_BLOCKS) :
    (s.received peerId block).Sound emitted ∧ (s.Tracked → (s.received peerId block).Tracked) := by
  have hmem : block.header.blockId ∈ s.inFlight := (mem_iff_lookup _ _).mpr ⟨_, howner⟩
  obtain ⟨hpending, hbuffered, -⟩ := h.requested _ hmem
  have hreleased := h.release howner
  refine ⟨{ hreleased with requested := ?_, waiting := ?_, buffered_le := ?_ }, fun ht id hid => ?_⟩
  · intro id hid
    obtain ⟨hid', hout, hstalled⟩ := hreleased.requested id hid
    refine ⟨hid', fun hin => ?_, hstalled⟩
    rcases mem_insert_iff.mp hin with heq | hin
    · exact (mem_erase_iff.mp hid).1 heq
    · exact hout hin
  · intro id b hid
    rw [BlockScheduler.received, lookup_insert] at hid
    split_ifs at hid with heq
    · cases hid
      exact ⟨heq ▸ hpending, heq⟩
    · exact h.waiting id b hid
  · have hsize : (s.received peerId block).buffered.size = s.buffered.size + 1 :=
      size_insert_of_notMem _ hbuffered
    omega
  · by_cases heq : block.header.blockId = id
    · exact .inr (.inl (mem_insert_iff.mpr (.inl heq)))
    · rcases ht id hid with hflight | hin | hrest
      · exact .inl (mem_erase_iff.mpr ⟨heq, hflight⟩)
      · exact .inr (.inl (mem_insert_iff.mpr (.inr hin)))
      · exact .inr (.inr hrest)

/-- What a delivery does: nothing, the loss of the body, or its way into the buffer. -/
theorem Sound.onBlock (peerId : PeerId) (block : Block) (h : s.Sound emitted) :
    (s.call (.onBlock peerId block)).1.Sound (emitted ++ (s.call (.onBlock peerId block)).2) ∧
      (s.Room (.onBlock peerId block) → s.Tracked →
        (s.call (.onBlock peerId block)).1.Tracked ∧ s.NextKept (.onBlock peerId block)) := by
  by_cases howner : s.inFlight[block.header.blockId]? = some peerId
  · by_cases hfull : MAX_BUFFERED_BLOCKS ≤ s.buffered.size
    · rw [h.call_full howner hfull, List.append_nil]
      refine ⟨h.release howner, fun hroom ht => ⟨fun id hid => ?_, ?_⟩⟩
      · have hleft := ((hroom _ _ rfl howner).resolve_left (Nat.not_lt_of_le hfull)).1
        by_cases heq : block.header.blockId = id
        · exact .inr (.inr (.inr (heq ▸ hleft)))
        · exact (ht id hid).imp_left fun hflight => mem_erase_iff.mpr ⟨heq, hflight⟩
      · intro peerId' block' heq howner' hnext
        cases heq
        exact absurd hnext ((hroom _ _ rfl howner).resolve_left (Nat.not_lt_of_le hfull)).2
    · have hspace := Nat.lt_of_not_le hfull
      have hcall := h.call_room howner hspace
      obtain ⟨hsound, htracked⟩ := h.received howner hspace
      obtain ⟨hsound', htracked'⟩ := drain_spec hsound rfl
      refine ⟨hcall ▸ hsound', fun _ ht => ⟨hcall ▸ htracked' (htracked ht), ?_⟩⟩
      intro peerId' block' heq _ hnext
      cases heq
      obtain ⟨hlt, hget⟩ := List.getElem?_eq_some_iff.mp hnext
      have hpending : s.pending = block.header.blockId :: s.targets.drop (s.nextSubmit + 1) := by
        rw [pending, ← List.getElem_cons_drop hlt, hget]
      have hb : (s.received peerId block).buffered[block.header.blockId]? = some ⟨peerId, block⟩ := by
        rw [BlockScheduler.received, lookup_insert, if_pos rfl]
      rw [hcall, hpending, drain, hb]
      exact List.mem_cons_self ..
  · rw [call_of_not_owner howner, List.append_nil]
    refine ⟨h, fun _ ht => ⟨ht, ?_⟩⟩
    intro peerId' block' heq howner' _
    cases heq
    exact absurd howner' howner

theorem Sound.room_of_kept {call : SyncCall} (h : s.Sound emitted)
    (htracked : (s.call call).1.Tracked) (hkept : s.NextKept call) : s.Room call := by
  rintro peerId block rfl howner
  refine or_iff_not_imp_left.mpr fun hfull => ?_
  have hmem : block.header.blockId ∈ s.inFlight := (mem_iff_lookup _ _).mpr ⟨_, howner⟩
  obtain ⟨hpending, hbuffered, hstalled⟩ := h.requested _ hmem
  have hcall := h.call_full howner (Nat.le_of_not_lt hfull)
  rw [hcall] at htracked
  constructor
  · rcases htracked _ hpending with hflight | hin | hgiven | hleft
    · exact absurd rfl (mem_erase_iff.mp hflight).1
    · exact absurd hin hbuffered
    · exact absurd hgiven hstalled
    · exact hleft
  · intro hnext
    have hsubmitted := hkept _ _ rfl howner hnext
    simp_all

theorem Sound.call (h : s.Sound emitted) (call : SyncCall) :
    (s.call call).1.Sound (emitted ++ (s.call call).2) := by
  cases call with
  | schedule peers => exact (schedule_spec peers h).1
  | onBlock peerId block => exact (h.onBlock peerId block).1
  | onTimeout peerId blockId => exact (onTimeout_spec peerId blockId h).1

theorem Sound.call_kept_iff (h : s.Sound emitted) (ht : s.Tracked) (call : SyncCall) :
    ((s.call call).1.Tracked ∧ s.NextKept call) ↔ s.Room call := by
  refine ⟨fun hkept => h.room_of_kept hkept.1 hkept.2, fun hroom => ?_⟩
  cases call with
  | schedule peers => exact ⟨(schedule_spec peers h).2 ht, by rintro _ _ ⟨⟩⟩
  | onBlock peerId block => exact (h.onBlock peerId block).2 hroom ht
  | onTimeout peerId blockId => exact ⟨(onTimeout_spec peerId blockId h).2 ht, by rintro _ _ ⟨⟩⟩

theorem Sound.run (h : s.Sound emitted) (calls : List SyncCall) :
    (s.run calls).1.Sound (emitted ++ (s.run calls).2) := by
  induction calls generalizing s emitted with
  | nil =>
    rw [BlockScheduler.run, List.append_nil]
    exact h
  | cons call calls ih =>
    have hrest := ih (h.call call)
    rw [List.append_assoc] at hrest
    exact hrest

/-- All states that a sequence of calls passes through are tracked and no next body is
dropped, exactly when every call finds room. -/
theorem Sound.run_kept_iff (h : s.Sound emitted) (ht : s.Tracked) (calls : List SyncCall) :
    ((∀ done, done <+: calls → (s.run done).1.Tracked) ∧
      ∀ done call, done ++ [call] <+: calls → (s.run done).1.NextKept call) ↔
    ∀ done call, done ++ [call] <+: calls → (s.run done).1.Room call := by
  induction calls generalizing s emitted with
  | nil =>
    refine ⟨fun _ done call hdone => ?_, fun _ => ⟨fun done hdone => ?_, fun done call hdone => ?_⟩⟩
    · simp at hdone
    · rw [List.prefix_nil.mp hdone]
      exact ht
    · simp at hdone
  | cons call calls ih =>
    have hfirst := h.call_kept_iff ht call
    constructor
    · rintro ⟨htracked, hkept⟩ done other hdone
      have hcall : (s.call call).1.Tracked := htracked [call] (by simp)
      cases done with
      | nil =>
        have heq : other = call := by simpa using hdone
        rw [heq]
        exact hfirst.mp ⟨hcall, hkept [] call (by simp)⟩
      | cons first done =>
        obtain ⟨rfl, hrest⟩ := List.cons_prefix_cons.mp hdone
        refine (ih (h.call first) hcall).mp ⟨fun d hd => ?_, fun d c hd => ?_⟩ done other hrest
        · exact htracked (first :: d) (List.cons_prefix_cons.mpr ⟨rfl, hd⟩)
        · exact hkept (first :: d) c (List.cons_prefix_cons.mpr ⟨rfl, hd⟩)
    · intro hroom
      obtain ⟨hcall, hnext⟩ := hfirst.mpr (hroom [] call (by simp))
      obtain ⟨htracked, hkept⟩ := (ih (h.call call) hcall).mpr fun done other hdone =>
        hroom (call :: done) other (List.cons_prefix_cons.mpr ⟨rfl, hdone⟩)
      refine ⟨fun done hdone => ?_, fun done other hdone => ?_⟩
      · cases done with
        | nil => exact ht
        | cons first done =>
          obtain ⟨rfl, hrest⟩ := List.cons_prefix_cons.mp hdone
          exact htracked done hrest
      · cases done with
        | nil =>
          have heq : other = call := by simpa using hdone
          rw [heq]
          exact hnext
        | cons first done =>
          obtain ⟨rfl, hrest⟩ := List.cons_prefix_cons.mp hdone
          exact hkept done other hrest

/-- Over distinct targets, a sequence of calls loses no target in any state it reaches and
drops no body that is next to submit, exactly when each body delivered by its owner finds
room in the buffer, or is not next and has attempts left. -/
theorem sync_keeps_every_block_iff_room {targets : List Hash256} (h : targets.Nodup) :
    ∃ start, new targets = .ok start ∧ ∀ calls,
      ((∀ done, done <+: calls → (start.run done).1.NoneLost (start.run done).2) ∧
        ∀ done call, done ++ [call] <+: calls → (start.run done).1.NextKept call) ↔
      ∀ done call, done ++ [call] <+: calls → (start.run done).1.Room call := by
  obtain ⟨start, hstart, hsound, htracked⟩ := exists_new h
  refine ⟨start, hstart, fun calls => ?_⟩
  rw [← hsound.run_kept_iff htracked calls]
  refine and_congr_left fun _ => forall_congr' fun done => imp_congr_right fun _ => ?_
  exact (hsound.run done).noneLost_iff

omit [Crypto] in
theorem scheduleFrom_targets (peers : List SyncPeer) (ids : List Hash256) (s : BlockScheduler) :
    (scheduleFrom peers ids s).1.targets = s.targets := by
  induction ids generalizing s with
  | nil => rfl
  | cons blockId rest ih =>
    rw [scheduleFrom]
    split_ifs
    · rfl
    · exact ih s
    · split
      · rfl
      · exact ih _

omit [Crypto] in
theorem drain_targets (ids : List Hash256) (s : BlockScheduler) :
    (drain ids s).1.targets = s.targets := by
  induction ids generalizing s with
  | nil => rfl
  | cons expected rest ih =>
    rw [drain]
    split
    · rfl
    · exact ih _

theorem Sound.call_targets (h : s.Sound emitted) (call : SyncCall) :
    (s.call call).1.targets = s.targets := by
  cases call with
  | schedule peers =>
    simp only [BlockScheduler.call, schedule]
    split_ifs
    · rfl
    · exact scheduleFrom_targets ..
  | onBlock peerId block =>
    by_cases howner : s.inFlight[block.header.blockId]? = some peerId
    · by_cases hfull : MAX_BUFFERED_BLOCKS ≤ s.buffered.size
      · rw [h.call_full howner hfull, release_targets]
      · rw [h.call_room howner (Nat.lt_of_not_le hfull), drain_targets]
        rfl
    · rw [call_of_not_owner howner]
  | onTimeout peerId blockId =>
    simp only [BlockScheduler.call, onTimeout]
    split_ifs
    · rfl
    · rfl
    · rfl

theorem Sound.run_targets (h : s.Sound emitted) (calls : List SyncCall) :
    (s.run calls).1.targets = s.targets := by
  induction calls generalizing s emitted with
  | nil => rfl
  | cons call calls ih => exact (ih (h.call call)).trans (h.call_targets call)

/-- Whatever is called, the bodies submitted are the targets from the first on, each once and
in order, and the limits on requests and buffered bodies hold; a scheduler that is complete
has submitted them all. -/
theorem run_submits_in_order {targets : List Hash256} (h : targets.Nodup) :
    ∃ start, new targets = .ok start ∧ ∀ calls,
      let s := (start.run calls).1
      (start.run calls).2.filterMap SyncAction.submittedId = targets.take s.nextSubmit ∧
      (s.isComplete → (start.run calls).2.filterMap SyncAction.submittedId = targets) ∧
      s.inFlight.size ≤ MAX_IN_FLIGHT_BLOCKS_GLOBAL ∧
      (∀ peerId, s.owned peerId ≤ MAX_IN_FLIGHT_BLOCKS_PEER) ∧
      s.buffered.size ≤ MAX_BUFFERED_BLOCKS := by
  obtain ⟨start, hstart, hsound, -⟩ := exists_new h
  have htargets : start.targets = targets := by
    rw [new, bind_eq_ok] at hstart
    obtain ⟨index, -, hpure⟩ := hstart
    rw [← pure_eq_ok.mp hpure]
  refine ⟨start, hstart, fun calls => ?_⟩
  have hrun := hsound.run calls
  have hsubmitted := hrun.submitted
  rw [hsound.run_targets, htargets, List.nil_append] at hsubmitted
  refine ⟨hsubmitted, fun hcomplete => ?_, hrun.inFlight_le, hrun.owned_le, hrun.buffered_le⟩
  rw [isComplete, decide_eq_true_eq, hsound.run_targets, htargets] at hcomplete
  rw [hsubmitted, hcomplete, List.take_length]

omit [Crypto] in
theorem indexTargets_nodup {targets : List Hash256} {p : ℕ} {index out : ExtTreeMap Hash256 ℕ}
    (h : indexTargets p targets index = .ok out) :
    targets.Nodup ∧ ∀ id ∈ targets, id ∉ index := by
  induction targets generalizing p index with
  | nil => exact ⟨List.nodup_nil, by simp⟩
  | cons target rest ih =>
    rw [indexTargets] at h
    grind

omit [Crypto] in
theorem new_nodup {targets : List Hash256} {start : BlockScheduler}
    (h : new targets = .ok start) : targets.Nodup := by
  grind [new, bind_eq_ok, indexTargets_nodup]

/-- No target was asked for more often than allowed. -/
def Spared (s : BlockScheduler) : Prop := ∀ id, s.attemptsOf id ≤ MAX_BLOCK_ATTEMPTS

omit [Crypto] in
/-- Requests are the only place where attempts are counted, and `skips` guards them. -/
theorem Spared.scheduleFrom {peers : List SyncPeer} {ids : List Hash256} (h : s.Spared) :
    (scheduleFrom peers ids s).1.Spared := by
  induction ids generalizing s with
  | nil => exact h
  | cons blockId rest ih =>
    rw [BlockScheduler.scheduleFrom]
    split_ifs with hglobal hskip
    · exact h
    · exact ih h
    · split
      · exact h
      · next peer _ =>
        apply ih
        intro id
        rw [request_attemptsOf]
        split_ifs with heq
        · simp only [skips, not_or] at hskip
          exact Nat.lt_of_not_le hskip.2.2.2
        · exact h id

omit [Crypto] in
theorem drain_attempts (ids : List Hash256) (s : BlockScheduler) :
    (drain ids s).1.attempts = s.attempts := by
  induction ids generalizing s with
  | nil => rfl
  | cons expected rest ih =>
    rw [drain]
    split
    · rfl
    · exact ih _

theorem Spared.call (hsound : s.Sound emitted) (h : s.Spared) (call : SyncCall) :
    (s.call call).1.Spared := by
  cases call with
  | schedule peers =>
    simp only [BlockScheduler.call, schedule]
    split_ifs
    · exact h
    · exact h.scheduleFrom
  | onBlock peerId block =>
    by_cases howner : s.inFlight[block.header.blockId]? = some peerId
    · by_cases hfull : MAX_BUFFERED_BLOCKS ≤ s.buffered.size
      · rw [hsound.call_full howner hfull]
        exact h
      · rw [hsound.call_room howner (Nat.lt_of_not_le hfull)]
        intro id
        rw [attemptsOf, drain_attempts]
        exact h id
    · rw [call_of_not_owner howner]
      exact h
  | onTimeout peerId blockId =>
    simp only [BlockScheduler.call, onTimeout]
    split_ifs
    · exact h
    · exact h
    · exact h

theorem Spared.run (hsound : s.Sound emitted) (h : s.Spared) (calls : List SyncCall) :
    (s.run calls).1.Spared := by
  induction calls generalizing s emitted with
  | nil => exact h
  | cons call calls ih => exact ih (hsound.call call) (h.call hsound call)

/-- A target is in at most one place: requested, buffered, or submitted. -/
def Apart (s : BlockScheduler) (submitted : List Hash256) : Prop :=
  ∀ id, ¬ (id ∈ s.inFlight ∧ id ∈ s.buffered) ∧ ¬ (id ∈ s.inFlight ∧ id ∈ submitted) ∧
    ¬ (id ∈ s.buffered ∧ id ∈ submitted)

theorem Sound.apart (h : s.Sound emitted) :
    s.Apart (emitted.filterMap SyncAction.submittedId) := by
  have hdisjoint : ∀ id ∈ s.pending, id ∉ emitted.filterMap SyncAction.submittedId := by
    intro id hid hsubmitted
    rw [h.submitted] at hsubmitted
    have hnodup := h.distinct
    rw [← List.take_append_drop s.nextSubmit s.targets] at hnodup
    exact List.disjoint_of_nodup_append hnodup hsubmitted hid
  intro id
  refine ⟨fun hboth => (h.requested id hboth.1).2.1 hboth.2, fun hboth => ?_, fun hboth => ?_⟩
  · exact hdisjoint id (h.requested id hboth.1).1 hboth.2
  · obtain ⟨b, hb⟩ := (mem_iff_lookup _ _).mp hboth.1
    exact hdisjoint id (h.waiting id b hb).1 hboth.2

/-- A peer that does not own the request of a target has no effect on the scheduler. -/
def IgnoresStrangers (s : BlockScheduler) : Prop :=
  ∀ peerId,
    (∀ block : Block, s.inFlight[block.header.blockId]? ≠ some peerId →
      s.onBlock peerId block = (s, .error (.unexpectedBlock peerId block.header.blockId))) ∧
    ∀ blockId, s.inFlight[blockId]? ≠ some peerId → s.onTimeout peerId blockId = (s, [])

theorem ignoresStrangers (s : BlockScheduler) : s.IgnoresStrangers := by
  intro peerId
  constructor
  · intro block howner
    exact if_neg howner
  · intro blockId howner
    exact if_neg howner

/-- Every scheduler, in every state that calls lead to: the bodies submitted are the first
targets in order, each once; requests, buffer and attempts are within their limits and the
counters per peer exact; a target is in one place at a time; strangers have no effect. -/
theorem scheduler_bounds_and_order {targets : List Hash256} {start : BlockScheduler}
    (h : new targets = .ok start) (calls : List SyncCall) :
    let s := (start.run calls).1
    let submitted := (start.run calls).2.filterMap SyncAction.submittedId
    (submitted <+: targets ∧ submitted.Nodup) ∧
      s.inFlight.size ≤ 32 ∧
      (∀ peerId, s.inFlightForPeer peerId ≤ 8 ∧ s.inFlightForPeer peerId = s.owned peerId) ∧
      s.buffered.size ≤ 32 ∧
      (∀ id, s.attemptsOf id ≤ 3) ∧
      s.Apart submitted ∧
      s.IgnoresStrangers := by
  have hnodup := new_nodup h
  obtain ⟨start', hstart', hsound, -⟩ := exists_new hnodup
  obtain rfl : start = start' := Except.ok.inj (h.symm.trans hstart')
  obtain ⟨start', hstart', hrun⟩ := run_submits_in_order hnodup
  obtain rfl : start = start' := Except.ok.inj (h.symm.trans hstart')
  obtain ⟨hsubmitted, -, hflight, howned, hbuffered⟩ := hrun calls
  have hfresh : start.Spared := by
    rw [new, bind_eq_ok] at h
    obtain ⟨index, -, hpure⟩ := h
    rw [← pure_eq_ok.mp hpure]
    intro id
    simp [attemptsOf]
  refine ⟨⟨?_, ?_⟩, hflight, fun peerId => ?_, hbuffered, hfresh.run hsound calls, ?_,
    ignoresStrangers _⟩
  · rw [hsubmitted]
    exact List.take_prefix ..
  · rw [hsubmitted]
    exact hnodup.sublist (List.take_sublist ..)
  · have hcount := (hsound.run calls).counted peerId
    exact ⟨hcount ▸ howned peerId, hcount⟩
  · exact (hsound.run calls).apart

end BlockScheduler

namespace Sample

open Oregon.Sample

/-- Bodies told apart by their nonces. -/
def body (n : ℕ) : Block := block 0 0 (UInt64.ofNat n) []

/-- One target more than the buffer holds. -/
def plan : List Hash256 := (List.range 33).map fun n => (body n).header.blockId

def started : Except SyncError BlockScheduler → BlockScheduler
  | .ok start => start
  | .error _ => ⟨[], ∅, 0, ∅, ∅, ∅, ∅, ∅⟩

theorem eq_started {r : Except SyncError BlockScheduler} (h : r.isOk) : r = .ok (started r) := by
  cases r with
  | ok => rfl
  | error => cases h

def planned : BlockScheduler := started (BlockScheduler.new plan)

def peers : List SyncPeer := [1, 2, 3, 4].map fun id => ⟨id, true, true, ⟨0, 0, 10⟩⟩

/-- All bodies but the first arrive, each from the peer that was asked for it. -/
def fill : List SyncCall :=
  .schedule peers ::
    (List.range 31).map (fun n => .onBlock ((n + 1) / 8 + 1) (body (n + 1))) ++
    [.schedule peers, .onBlock 1 (body 32)]

/-- Then the first arrives, and again each time it is asked for. -/
def refused : List SyncCall :=
  [.onBlock 1 (body 0), .schedule peers, .onBlock 1 (body 0), .schedule peers, .onBlock 1 (body 0)]

def pair : List Hash256 := [(body 0).header.blockId, (body 1).header.blockId]

def turned : List SyncCall := [.schedule peers, .onBlock 1 (body 1), .onBlock 1 (body 0)]

end Sample

open Oregon.Sample Oregon.Sync.Sample in
/-- The second body waits in the buffer for the first. -/
theorem sync_keeps_every_block_iff_room_sample : ∃ start, BlockScheduler.new pair = .ok start ∧
    (start.run turned).2.filterMap SyncAction.submittedId = pair ∧
    (∀ done, done <+: turned → (start.run done).1.NoneLost (start.run done).2) ∧
    ∀ done call, done ++ [call] <+: turned → (start.run done).1.NextKept call := by
  obtain ⟨start, hstart, hiff⟩ :=
    @BlockScheduler.sync_keeps_every_block_iff_room crypto pair (by decide +kernel)
  obtain rfl : started (BlockScheduler.new pair) = start :=
    Except.ok.inj ((eq_started (by decide +kernel)).symm.trans hstart)
  have hroom : ∀ done ∈ turned.inits, ((started (BlockScheduler.new pair)).run done).1.buffered.size <
      MAX_BUFFERED_BLOCKS := by decide +kernel
  refine ⟨_, hstart, by decide +kernel, (hiff turned).mpr fun done call hdone _ _ _ _ => .inl ?_⟩
  exact hroom done ((List.mem_inits ..).mpr ((List.prefix_append ..).trans hdone))

open Oregon.Sample Oregon.Sync.Sample in
/-- With the buffer full the next body is turned away, and after the last attempt its target
is neither under way nor reported. -/
theorem full_buffer_loses_next_block :
    plan.Nodup ∧ BlockScheduler.new plan = .ok planned ∧
      ¬ (planned.run fill).1.NextKept (.onBlock 1 (body 0)) ∧
      ¬ (planned.run (fill ++ refused)).1.NoneLost (planned.run (fill ++ refused)).2 := by
  have hfill : (planned.run fill).1.inFlight[(body 0).header.blockId]? = some 1 ∧
      (planned.run fill).1.targets[(planned.run fill).1.nextSubmit]? =
        some (body 0).header.blockId ∧
      .submitBlock 1 (body 0) ∉ ((planned.run fill).1.call (.onBlock 1 (body 0))).2 := by
    decide +kernel
  have hrefused : ¬ ((body 0).header.blockId ∈ (planned.run (fill ++ refused)).1.targets.drop
      (planned.run (fill ++ refused)).1.nextSubmit →
      (body 0).header.blockId ∈ (planned.run (fill ++ refused)).1.inFlight ∨
      (body 0).header.blockId ∈ (planned.run (fill ++ refused)).1.buffered ∨
      ((planned.run (fill ++ refused)).1.attemptsOf (body 0).header.blockId < MAX_BLOCK_ATTEMPTS ∧
        (body 0).header.blockId ∉ (planned.run (fill ++ refused)).1.stalled) ∨
      .stalled (body 0).header.blockId ∈ (planned.run (fill ++ refused)).2) := by decide +kernel
  refine ⟨by decide +kernel, eq_started (by decide +kernel), fun hkept => ?_, fun hnone => ?_⟩
  · exact hfill.2.2 (hkept 1 (body 0) rfl hfill.1 hfill.2.1)
  · exact hrefused (hnone (body 0).header.blockId)

open Oregon.Sample Oregon.Sync.Sample in
/-- The bounds after a round in which all bodies but the first arrive. -/
theorem scheduler_bounds_and_order_fill : BlockScheduler.new plan = .ok planned ∧
    (planned.run fill).1.buffered.size ≤ 32 := by
  have hplan : BlockScheduler.new plan = .ok planned := eq_started (by decide +kernel)
  exact ⟨hplan, (BlockScheduler.scheduler_bounds_and_order hplan fill).2.2.2.1⟩

end Oregon.Sync
