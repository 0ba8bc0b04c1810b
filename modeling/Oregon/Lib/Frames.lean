import Mathlib.Data.List.Infix

/-! Stacks of frames, with the newest first. A step opens a frame, changes the newest or folds the
newest into the one below it, and so leaves every frame alone that has others above it
afterwards. -/

namespace Lib

variable {α : Type}

inductive FramesStep : List α → List α → Prop where
  | same (frames : List α) : FramesStep frames frames
  | opened (frame : α) (frames : List α) : FramesStep frames (frame :: frames)
  | changed (frame frame' : α) (below : List α) : FramesStep (frame :: below) (frame' :: below)
  | folded (child parent parent' : α) (below : List α) :
      FramesStep (child :: parent :: below) (parent' :: below)

/-- A step leaves the frames alone that are not the newest after it. -/
theorem FramesStep.above {frames frames' base : List α} (h : FramesStep frames frames')
    (hbase : base <:+ frames) (hlt : base.length < frames'.length) : base <:+ frames' := by
  have hbelow : ∀ {frame below}, below <:+ frames → base.length < (frame :: below).length →
      base <:+ frame :: below := by
    intro frame below hsuffix hlt
    have hbase_below := List.suffix_of_suffix_length_le hbase hsuffix (Nat.le_of_lt_succ hlt)
    exact hbase_below.trans (List.suffix_cons _ _)
  cases h with
  | same => exact hbase
  | opened frame => exact hbase.trans (List.suffix_cons _ _)
  | changed frame frame' below => exact hbelow (List.suffix_cons _ _) hlt
  | folded child parent parent' below =>
    exact hbelow ((List.suffix_cons _ _).trans (List.suffix_cons _ _)) hlt

theorem eq_of_suffix_cons {base below : List α} {frame : α} (h : base <:+ frame :: below)
    (hlength : (frame :: below).length = base.length + 1) : below = base := by
  have hlength : below.length = base.length := Nat.succ.inj hlength
  have hsuffix := List.suffix_of_suffix_length_le h (List.suffix_cons frame below) hlength.ge
  exact (hsuffix.eq_of_length hlength.symm).symm

theorem exists_cons_cons {frames : List α} (hne : frames ≠ []) (h : frames.length ≠ 1) :
    ∃ child parent below, frames = child :: parent :: below := by
  rcases frames with _ | ⟨child, _ | ⟨parent, below⟩⟩
  · exact absurd rfl hne
  · exact absurd rfl h
  · exact ⟨child, parent, below, rfl⟩

end Lib
