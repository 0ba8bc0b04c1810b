import Oregon.Lib.Frames
import Oregon.Proofs.Journal

/-! The counters of the journal, after any calls, failed ones included: they are the true counts
and sizes of the pending writes, within the limits, and a frame that is dropped gives back all
that was taken for it. -/

namespace Oregon.Execution

open Lib ContractState

variable {j j' : ExecutionJournalV1}

/-- The depth and the number of frames are within their limits. -/
structure ExecutionJournalV1.Shallow (j : ExecutionJournalV1) : Prop where
  depth : j.frames.length ≤ j.limits.maxDepth
  total : j.totalFramesCreated ≤ j.limits.maxFrames

/-- What a call that changes the journal leads to. -/
structure Moved (j j' : ExecutionJournalV1) : Prop where
  inv : j'.Inv
  base : SameBase j j'
  total : j.totalFramesCreated ≤ j'.totalFramesCreated
  shallow : j.Shallow → j'.Shallow
  frames : FramesStep j.frames j'.frames

/-- A call fails without a change, and not because a counter is wrong, or goes on. -/
def Outcome (j : ExecutionJournalV1) (result : Except JournalError ExecutionJournalV1) : Prop :=
  (∃ e, e ≠ .accountingInvariant ∧ result = .error e) ∨ ∃ j', result = .ok j' ∧ Moved j j'

theorem Moved.refl (hinv : j.Inv) : Moved j j := ⟨hinv, .refl j, le_rfl, id, .same _⟩

theorem Staged.moved {domain : CommitmentDomainId} {key : Bytes} {value : JournalValue}
    (hinv : j.Inv) (h : Staged j domain key value j') : Moved j j' := by
  obtain ⟨top, top', below, hframes, hframes', -⟩ := h.frames
  refine ⟨h.inv hinv, h.base, h.total.ge, fun hshallow => ⟨?_, ?_⟩, ?_⟩
  · have hdepth := hshallow.depth
    rw [hframes] at hdepth
    rw [hframes', h.base.limits]
    exact hdepth
  · rw [h.total, h.base.limits]
    exact hshallow.total
  · rw [hframes, hframes']
    exact .changed top top' below

/-- An error that does not say that a counter is wrong. -/
abbrev Honest {α : Type} (x : Except JournalError α) : Prop := FailsIn (· ≠ .accountingInvariant) x

theorem configuredSnapshot_honest (j : ExecutionJournalV1) (domain : CommitmentDomainId) :
    Honest (j.configuredSnapshot domain) := by
  refine .bind ?_ fun _ => .orElse (by simp)
  intro e he
  cases domain <;> cases he <;> simp

theorem nextEntries_honest {existing : Option JournalValue} {entries : ℕ} {e : JournalError}
    (h : e ≠ .accountingInvariant ∨ entries + 1 < 2 ^ 64) : Honest (nextEntries existing entries e) := by
  cases existing with
  | some _ => exact .ok _
  | none =>
    rcases h with h | h
    · exact .orElse h
    · rw [nextEntries, checkedAdd, if_pos h]
      exact .ok _

theorem stageWrite_honest (hinv : j.Inv) (domain : CommitmentDomainId) (key : Bytes)
    (value : JournalValue) : Honest (j.stageWrite domain key value) := by
  obtain ⟨top, below, hframes⟩ := List.exists_cons_of_ne_nil hinv.frames
  have hsums := hinv.entries
  have hsums' := hinv.bytes
  have hle := hinv.entries_le.trans j.limits.entries_le
  simp only [hframes, List.map_cons, List.sum_cons] at hsums hsums'
  rw [ExecutionJournalV1.stageWrite, hframes]
  refine (configuredSnapshot_honest j domain).bind fun _ => ?_
  refine .bind (.ensure (by simp)) fun _ => ?_
  refine .bind ?_ fun _ => ?_
  · intro e he
    obtain ⟨v, -, he⟩ := forM_eq_error he
    simp [← (ensure_eq_error.mp he).2]
  refine .bind (.orElse (by simp)) fun newBytes => ?_
  refine .bind (nextEntries_honest (Or.inl (by simp))) fun nextLiveEntries => ?_
  refine .bind (.ensure (by simp)) fun _ => ?_
  refine .bind_ok (.orElse (by simp)) fun nextRetainedBytes hretained => ?_
  refine .bind_ok (.ensure (by simp)) fun _ hbytes => ?_
  refine .bind (nextEntries_honest (Or.inr (by omega))) fun nextFrameEntries => ?_
  -- the frame holds what it replaces, and less than all frames together
  have hold : _ ≤ top.bytes := weightAt₂_le entryWeight top.writes domain key
  rw [← (hinv.counted top (by simp [hframes])).2] at hold
  obtain ⟨-, hnext, -⟩ := nextBytes_eq_ok.mp hretained
  have hlimit := (ensure_eq_ok.mp hbytes).trans j.limits.bytes_le
  have hframe : nextBytes top.retainedBytes
      (((top.find domain key).map (JournalFrame.entryBytes key.length)).getD 0) newBytes
      .accountingInvariant = .ok _ := nextBytes_eq_ok.mpr ⟨hold, rfl, by omega⟩
  rw [hframe]
  exact .ok _

theorem stageWrite_outcome (hinv : j.Inv) (domain : CommitmentDomainId) (key : Bytes)
    (value : JournalValue) : Outcome j (j.stageWrite domain key value) := by
  cases h : j.stageWrite domain key value with
  | ok j' => exact Or.inr ⟨j', rfl, (stageWrite_ok h).moved hinv⟩
  | error e => exact Or.inl ⟨e, stageWrite_honest hinv domain key value e h, rfl⟩

theorem beginFrame_outcome (hinv : j.Inv) : Outcome j j.beginFrame := by
  cases h : j.beginFrame with
  | ok j' =>
    obtain ⟨hinv', hbase, hframes⟩ := beginFrame_ok hinv h
    obtain ⟨⟨hdepth, htotal⟩, rfl⟩ := beginFrame_eq_ok.mp h
    exact Or.inr ⟨_, rfl, hinv', hbase, Nat.le_succ _, fun _ => ⟨hdepth, htotal⟩, .opened _ _⟩
  | error e =>
    refine Or.inl ⟨e, ?_, rfl⟩
    have hhonest : Honest j.beginFrame :=
      .bind (.orElse (by simp)) fun _ => .bind (.ensure (by simp)) fun _ =>
        .bind (.orElse (by simp)) fun _ => .bind (.ensure (by simp)) fun _ => .ok _
    exact hhonest e h

/-- Folding the newest frame fails at the root alone. -/
theorem fold_frames_outcome (hinv : j.Inv) {result : Except JournalError ExecutionJournalV1}
    (hroot : j.frames.length = 1 → result = .error .rootFrameLifecycle)
    (hfold : ∀ child parent below, j.frames = child :: parent :: below →
      ∃ parent', result = .ok (j.withFrames (parent' :: below)) ∧
        (j.withFrames (parent' :: below)).Inv) : Outcome j result := by
  by_cases hlength : j.frames.length = 1
  · exact Or.inl ⟨_, by simp, hroot hlength⟩
  · obtain ⟨child, parent, below, hframes⟩ := exists_cons_cons hinv.frames hlength
    obtain ⟨parent', hok, hinv'⟩ := hfold child parent below hframes
    refine Or.inr ⟨_, hok, hinv', .withFrames j _, le_rfl, fun hshallow => ⟨?_, hshallow.total⟩, ?_⟩
    · have hdepth := hshallow.depth
      rw [hframes] at hdepth
      exact (Nat.le_succ _).trans hdepth
    · rw [hframes]
      exact .folded child parent parent' below

theorem commitFrame_outcome (hinv : j.Inv) : Outcome j j.commitFrame := by
  refine fold_frames_outcome hinv (fun hroot => ?_) fun child parent below hframes => ?_
  · rw [ExecutionJournalV1.commitFrame, ensure_error (by simp [hroot]), error_bind]
  · exact ⟨_, commitFrame_ok hinv hframes, hinv.merged hframes⟩

theorem revertFrame_outcome (hinv : j.Inv) : Outcome j j.revertFrame := by
  refine fold_frames_outcome hinv (fun hroot => ?_) fun child parent below hframes => ?_
  · rw [ExecutionJournalV1.revertFrame, ensure_error (by simp [hroot]), error_bind]
  · exact ⟨_, revertFrame_ok hinv hframes, hinv.below hframes⟩

section

variable [Crypto] {source : StateSource} {context : JournalContextV1}
  {snapshots : List DomainSnapshot} {limits : JournalLimitsV1}

theorem read_honest (j : ExecutionJournalV1) (domain : CommitmentDomainId) (key : Bytes) :
    Honest (j.read domain key) := by
  refine (configuredSnapshot_honest j domain).bind fun snapshot => ?_
  refine .bind (.ensure (by simp)) fun _ => ?_
  split
  · exact .ok _
  · exact .mapError (by simp)

/-- What a call returns and what it leaves. -/
theorem call_outcome (hinv : j.Inv) (call : JournalCall) :
    (j.call call).1 ≠ .error .accountingInvariant ∧ Moved j (j.call call).2 := by
  -- a call that changes the journal leaves its result, or what was before
  have hchanging : ∀ {f : ExecutionJournalV1 → Except JournalError ExecutionJournalV1},
      Outcome j (f j) → (perform (changing f) j).1 ≠ .error .accountingInvariant ∧
        Moved j (perform (changing f) j).2 := by
    rintro f (⟨e, hne, hf⟩ | ⟨j', hf, hmoved⟩)
    · rw [changing_error hf]
      exact ⟨fun h => hne (Except.error.inj h), .refl hinv⟩
    · rw [changing_ok hf]
      exact ⟨by rintro ⟨⟩, hmoved⟩
  cases call with
  | read domain key => exact ⟨fun h => read_honest j domain key _ h rfl, .refl hinv⟩
  | put domain key value => exact hchanging (stageWrite_outcome hinv domain key (some value))
  | delete domain key => exact hchanging (stageWrite_outcome hinv domain key none)
  | beginFrame => exact hchanging (beginFrame_outcome hinv)
  | commitFrame => exact hchanging (commitFrame_outcome hinv)
  | revertFrame => exact hchanging (revertFrame_outcome hinv)

theorem after_accounted (hinv : j.Inv) (hshallow : j.Shallow) (calls : List JournalCall) :
    (j.after calls).Inv ∧ (j.after calls).Shallow ∧ (j.after calls).limits = j.limits := by
  induction calls generalizing j with
  | nil => exact ⟨hinv, hshallow, rfl⟩
  | cons call calls ih =>
    obtain ⟨-, hmoved⟩ := call_outcome hinv call
    obtain ⟨hinv', hshallow', hlimits⟩ := ih hmoved.inv (hmoved.shallow hshallow)
    exact ⟨hinv', hshallow', hlimits.trans hmoved.base.limits⟩

/-- What calls lead to after a frame is begun on `base`, while frames above it are open. -/
inductive CallsAbove (base : ExecutionJournalV1) : ExecutionJournalV1 → Prop where
  | begun {after} : base.beginFrame = .ok after → CallsAbove base after
  | call {after} (call : JournalCall) : CallsAbove base after →
      base.frames.length < (after.call call).2.frames.length → CallsAbove base (after.call call).2

theorem CallsAbove.suffix {base : ExecutionJournalV1} (hinv : base.Inv) (h : CallsAbove base j) :
    j.Inv ∧ base.frames <:+ j.frames := by
  induction h with
  | begun h =>
    obtain ⟨hinv', -, hframes⟩ := beginFrame_ok hinv h
    exact ⟨hinv', hframes ▸ List.suffix_cons _ _⟩
  | call call _ hlt ih =>
    obtain ⟨hinv', hsuffix⟩ := ih
    obtain ⟨-, hmoved⟩ := call_outcome hinv' call
    exact ⟨hmoved.inv, hmoved.frames.above hsuffix hlt⟩

/-- The counters of the frames and of the journal are the true counts and sizes of the pending
writes, within the limits; no call finds them wrong, and dropping a frame brings them back to what
they were before it. -/
structure JournalAccounted (limits : JournalLimitsV1) (j : ExecutionJournalV1) : Prop where
  frames : ∀ frame ∈ j.frames, frame.entries = frame.count ∧ frame.retainedBytes = frame.bytes
  live : j.liveEntries = (j.frames.map JournalFrame.entries).sum ∧
    j.retainedBytes = (j.frames.map JournalFrame.retainedBytes).sum
  within : j.liveEntries ≤ limits.maxEntries ∧ j.retainedBytes ≤ limits.maxBytes ∧
    j.frames.length ≤ limits.maxDepth ∧ j.totalFramesCreated ≤ limits.maxFrames
  total : ∀ call, j.totalFramesCreated ≤ (j.call call).2.totalFramesCreated
  honest : ∀ call, (j.call call).1 ≠ .error .accountingInvariant
  restored : ∀ after, CallsAbove j after → after.frames.length = j.frames.length + 1 →
    ∃ restored, after.revertFrame = .ok restored ∧ restored.frames = j.frames ∧
      restored.liveEntries = j.liveEntries ∧ restored.retainedBytes = j.retainedBytes

theorem revert_restores (hinv : j.Inv) {after : ExecutionJournalV1} (h : CallsAbove j after)
    (hlength : after.frames.length = j.frames.length + 1) :
    ∃ restored, after.revertFrame = .ok restored ∧ restored.frames = j.frames ∧
      restored.liveEntries = j.liveEntries ∧ restored.retainedBytes = j.retainedBytes := by
  obtain ⟨hinv', hsuffix⟩ := h.suffix hinv
  obtain ⟨child, below, hframes⟩ := List.exists_cons_of_ne_nil hinv'.frames
  rw [hframes] at hsuffix hlength
  obtain ⟨parent, rest, hparent⟩ := List.exists_cons_of_ne_nil hinv.frames
  rw [eq_of_suffix_cons hsuffix hlength, hparent] at hframes
  refine ⟨_, revertFrame_ok hinv' hframes, hparent.symm, ?_, ?_⟩
  · rw [hinv.entries, hparent]
    rfl
  · rw [hinv.bytes, hparent]
    rfl

theorem journal_accounted (hnew : ExecutionJournalV1.new source context snapshots limits = .ok j)
    (calls : List JournalCall) : JournalAccounted limits (j.after calls) := by
  have hopened : j.limits = limits ∧ j.frames.length = 1 ∧ j.totalFramesCreated = 1 := by
    simp only [ExecutionJournalV1.new, bind_eq_ok, pure_eq_ok] at hnew
    obtain ⟨_, -, _, -, _, -, rfl⟩ := hnew
    exact ⟨rfl, rfl, rfl⟩
  obtain ⟨hlimits, hdepth, htotal⟩ := hopened
  have hvalid := limits.valid
  have hshallow : j.Shallow := by
    constructor
    · rw [hlimits, hdepth]
      omega
    · rw [hlimits, htotal]
      omega
  obtain ⟨hinv, hshallow', hlimits'⟩ := after_accounted (new_ok hnew).1 hshallow calls
  rw [hlimits] at hlimits'
  constructor
  case frames => exact hinv.counted
  case live => exact ⟨hinv.entries, hinv.bytes⟩
  case within =>
    rw [← hlimits']
    exact ⟨hinv.entries_le, hinv.bytes_le, hshallow'.depth, hshallow'.total⟩
  case total => exact fun call => (call_outcome hinv call).2.total
  case honest => exact fun call => (call_outcome hinv call).1
  case restored => exact fun after => revert_restores hinv

end

open Oregon.Execution.Sample Oregon.ContractState.Sample in
theorem journal_accounted_sample : ∃ j,
    ExecutionJournalV1.new nothing context [snapshot] .default = .ok j ∧
      JournalAccounted .default (j.after journalCalls) := by
  have hnew : ExecutionJournalV1.new nothing context [snapshot] .default = .ok _ := rfl
  exact ⟨_, hnew, journal_accounted hnew journalCalls⟩

end Oregon.Execution
