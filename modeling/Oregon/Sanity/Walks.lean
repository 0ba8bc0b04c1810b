import Oregon.Sanity.Marks

/-! The walks over the index fail only as on a corrupt index, and they do not fail on a
sound branch: a record without invalid ancestors passes every check down to the anchor. -/

namespace Oregon

open Lib

def ChainStateError.IsCorrupt (e : ChainStateError) : Prop := ∃ message, e = .corruptState message

section Failures

variable {db : OregonDb}

theorem checkedIndex_fails (id : Hash256) : FailsIn ChainStateError.IsCorrupt (checkedIndex db id) := by
  refine .bind (.orElse ⟨_, rfl⟩) fun r => .bind (.ensure ⟨_, rfl⟩) fun _ => ?_
  split_ifs
  · exact .bind (.ensure ⟨_, rfl⟩) fun _ => .ok _
  · exact .bind (.orElse ⟨_, rfl⟩) fun _ => .bind (.ensure ⟨_, rfl⟩) fun _ =>
      .bind (.orElse ⟨_, rfl⟩) fun _ => .bind (.ensure ⟨_, rfl⟩) fun _ =>
      .bind (.mapError fun _ => ⟨_, rfl⟩) fun _ => .bind (.ensure ⟨_, rfl⟩) fun _ => .ok _

theorem walkDown_fails (steps : ℕ) (id : Hash256) (r : BlockIndexRecord) :
    FailsIn ChainStateError.IsCorrupt (walkDown db steps id r) := by
  induction steps generalizing id r with
  | zero => exact .ok _
  | succ steps ih => exact .bind (checkedIndex_fails _) fun _ => ih _ _

theorem ancestorIdAtHeight_fails (id : Hash256) (height : ℕ) :
    FailsIn ChainStateError.IsCorrupt (ancestorIdAtHeight db id height) := by
  refine .bind (checkedIndex_fails _) fun r => ?_
  split_ifs
  · exact .ok _
  · exact .bind (walkDown_fails _ _ _) fun _ => .ok _

theorem timestampsFrom_fails (count : ℕ) (id : Hash256) :
    FailsIn ChainStateError.IsCorrupt (timestampsFrom db count id) := by
  induction count generalizing id with
  | zero => exact .ok _
  | succ count ih =>
    refine .bind (checkedIndex_fails _) fun r => ?_
    split_ifs
    · exact .ok _
    · exact .bind (ih _) fun _ => .ok _

variable [Crypto]

theorem discoverForkFrom_fails (steps : ℕ) (id : Hash256) (r : BlockIndexRecord)
    (above : List CandidateNode) :
    FailsIn ChainStateError.IsCorrupt (discoverForkFrom db steps id r above) := by
  induction steps generalizing id r above with
  | zero =>
    rw [discoverForkFrom]
    split_ifs
    · exact .ok _
    · exact .error ⟨_, rfl⟩
    · exact .error ⟨_, rfl⟩
  | succ steps ih =>
    rw [discoverForkFrom]
    split_ifs
    · exact .ok _
    · exact .error ⟨_, rfl⟩
    · exact .error ⟨_, rfl⟩
    · refine .bind (.orElse ⟨_, rfl⟩) fun p => .bind ?_ fun _ => ih _ _ _
      exact .bind (.ensure ⟨_, rfl⟩) fun _ => .bind (.ensure ⟨_, rfl⟩) fun _ =>
        .bind (.ensure ⟨_, rfl⟩) fun _ => .bind (.ensure ⟨_, rfl⟩) fun _ =>
        .bind (.orElse ⟨_, rfl⟩) fun _ => .bind (.ensure ⟨_, rfl⟩) fun _ =>
        .bind (.mapError fun _ => ⟨_, rfl⟩) fun _ => .ensure ⟨_, rfl⟩

theorem discoverFork_fails (id : Hash256) (r : BlockIndexRecord) :
    FailsIn ChainStateError.IsCorrupt (discoverFork db id r) :=
  .bind (.ensure ⟨_, rfl⟩) fun _ => discoverForkFrom_fails _ _ _ _

end Failures

theorem checkedIndex_getIndex {db : OregonDb} {id : Hash256} {r : BlockIndexRecord}
    (h : checkedIndex db id = .ok r) : db.getIndex id = some r := by
  simp only [checkedIndex, bind_eq_ok, orElse_eq_ok, ensure_eq_ok, exists_unit] at h
  obtain ⟨q, hq, -, h⟩ := h
  split_ifs at h
  · simp only [bind_eq_ok, ensure_eq_ok, exists_unit, pure_eq_ok] at h
    exact h.2 ▸ hq
  · simp only [bind_eq_ok, ensure_eq_ok, exists_unit, pure_eq_ok] at h
    grind

theorem Sound.valid {index : Std.ExtTreeMap Hash256 BlockIndexRecord} {id : Hash256}
    {r : BlockIndexRecord} (h : Sound index id) (hr : index[id]? = some r) :
    r.validation ≠ .invalid := h id r .self hr

theorem Sound.parent {index : Std.ExtTreeMap Hash256 BlockIndexRecord} {id : Hash256}
    {r : BlockIndexRecord} (h : Sound index id) (hr : index[id]? = some r) (hheight : r.height ≠ 0) :
    Sound index r.parent := fun a q ha hq => h a q (.up hr hheight ha) hq

section

variable [Crypto] {config : ChainConfig} {db : OregonDb}

/-- A record of height zero is the anchor's. -/
theorem IndexOk.eq_anchor (hok : IndexOk config db.blockIndex) {id : Hash256}
    {r : BlockIndexRecord} (hr : db.getIndex id = some r) (hheight : r.height = 0) :
    id = config.anchorHeader.blockId ∧ r = anchorRecord config := by
  rcases hok.linked id r hr with rfl | ⟨p, -, hchild⟩
  · exact ⟨rfl, Option.some.inj (hr.symm.trans hok.anchor)⟩
  · have := hchild.height
    omega

theorem IndexOk.parent (hok : IndexOk config db.blockIndex) {id : Hash256} {r : BlockIndexRecord}
    (hr : db.getIndex id = some r) (hheight : r.height ≠ 0) :
    ∃ p, db.getIndex r.parent = some p ∧ ChildOf config.params p r := by
  rcases hok.linked id r hr with rfl | hlink
  · obtain rfl := Option.some.inj (hr.symm.trans hok.anchor)
    exact absurd rfl hheight
  · exact hlink

theorem checkedIndex_ok (hok : IndexOk config db.blockIndex) {id : Hash256} {r : BlockIndexRecord}
    (hr : db.getIndex id = some r) (hsound : Sound db.blockIndex id) :
    checkedIndex db id = .ok r := by
  unfold checkedIndex
  simp only [bind_eq_ok, orElse_eq_ok, ensure_eq_ok, exists_unit, hr, Option.some.injEq,
    exists_eq_left']
  refine ⟨hsound.valid hr, ?_⟩
  split_ifs with hheight
  · obtain ⟨-, rfl⟩ := hok.eq_anchor hr hheight
    simp [anchorRecord, ensure, pure, Except.pure, bind, Except.bind]
  · obtain ⟨p, hp, hchild⟩ := hok.parent hr hheight
    obtain ⟨t, ht, -, hwork⟩ := hchild.work
    have hadd : checkedAdd p.height 1 = some r.height :=
      checkedAdd_eq_some.mpr ⟨hchild.height.symm, hchild.range⟩
    simp only [bind_eq_ok, orElse_eq_ok, ensure_eq_ok, exists_unit, mapError_eq_ok, pure_eq_ok]
    exact ⟨p, hp, (hsound.parent hr hheight).valid hp, r.height, hadd, rfl, t, ht, hwork, trivial⟩

theorem walkDown_ok (hok : IndexOk config db.blockIndex) {steps : ℕ} {id : Hash256}
    {r : BlockIndexRecord} (hr : db.getIndex id = some r) (hsound : Sound db.blockIndex id)
    (hle : steps ≤ r.height) :
    ∃ a q, walkDown db steps id r = .ok a ∧ db.getIndex a = some q ∧ q.height + steps = r.height := by
  induction steps generalizing id r with
  | zero => exact ⟨id, r, rfl, hr, rfl⟩
  | succ steps ih =>
    have hheight : r.height ≠ 0 := by omega
    obtain ⟨p, hp, hchild⟩ := hok.parent hr hheight
    have hp' := hchild.height
    obtain ⟨a, q, hwalk, hq, hsum⟩ := ih hp (hsound.parent hr hheight) (by omega)
    refine ⟨a, q, ?_, hq, by omega⟩
    simp only [walkDown, bind_eq_ok]
    exact ⟨p, checkedIndex_ok hok hp (hsound.parent hr hheight), hwalk⟩

theorem ancestorIdAtHeight_ok (hok : IndexOk config db.blockIndex) {id : Hash256}
    {r : BlockIndexRecord} (hr : db.getIndex id = some r) (hsound : Sound db.blockIndex id)
    (height : ℕ) : ∃ found, ancestorIdAtHeight db id height = .ok found ∧
      (height ≤ r.height → ∃ a q, found = some a ∧ db.getIndex a = some q ∧ q.height = height) := by
  simp only [ancestorIdAtHeight, checkedIndex_ok hok hr hsound, ok_bind]
  split_ifs with hlt
  · exact ⟨none, rfl, fun hle => by omega⟩
  · obtain ⟨a, q, hwalk, hq, hsum⟩ := walkDown_ok hok hr hsound (Nat.sub_le r.height height)
    refine ⟨some a, ?_, fun _ => ⟨a, q, rfl, hq, by omega⟩⟩
    rw [hwalk]
    rfl

theorem timestampsFrom_ok (hok : IndexOk config db.blockIndex) {count : ℕ} {id : Hash256}
    {r : BlockIndexRecord} (hr : db.getIndex id = some r) (hsound : Sound db.blockIndex id) :
    ∃ window, timestampsFrom db count id = .ok window := by
  induction count generalizing id r with
  | zero => exact ⟨[], rfl⟩
  | succ count ih =>
    simp only [timestampsFrom, checkedIndex_ok hok hr hsound, ok_bind]
    split_ifs with hheight
    · exact ⟨_, rfl⟩
    · obtain ⟨p, hp, -⟩ := hok.parent hr hheight
      obtain ⟨window, hwindow⟩ := ih hp (hsound.parent hr hheight)
      rw [hwindow]
      exact ⟨_, rfl⟩

/-- The search for a fork ends at the active chain. -/
theorem discoverForkFrom_sound (hok : IndexOk config db.blockIndex)
    (hbottom : db.activeIdAtHeight 0 = some config.anchorHeader.blockId) {id : Hash256}
    {r : BlockIndexRecord} {above : List CandidateNode} {steps : ℕ} (hsteps : steps = r.height)
    (hr : db.getIndex id = some r) (hsound : Sound db.blockIndex id) :
    ∃ d, discoverForkFrom db steps id r above = .ok d := by
  induction steps generalizing id r above with
  | zero =>
    obtain ⟨rfl, -⟩ := hok.eq_anchor hr hsteps.symm
    rw [discoverForkFrom, ← hsteps, if_pos hbottom]
    exact ⟨_, rfl⟩
  | succ steps ih =>
    have hheight : r.height ≠ 0 := by omega
    rw [discoverForkFrom]
    split_ifs with hactive hinvalid
    · exact ⟨_, rfl⟩
    · exact absurd hinvalid (hsound.valid hr)
    · obtain ⟨p, hp, hchild⟩ := hok.parent hr hheight
      obtain ⟨t, ht, -, hwork⟩ := hchild.work
      have hlink : Link r.parent p id r := ⟨hok.ident _ _ hp, hok.ident _ _ hr,
        (hsound.parent hr hheight).valid hp, rfl, hchild.height, hchild.range, t, ht, hwork⟩
      have hp' := hchild.height
      obtain ⟨d, hd⟩ : ∃ d, discoverForkFrom db steps r.parent p (⟨id, r⟩ :: above) = .ok d :=
        ih (by omega) hp (hsound.parent hr hheight)
      simp only [bind_eq_ok, orElse_eq_ok, exists_unit, validateParentChild_ok]
      exact ⟨d, p, hp, hlink, hd⟩

theorem discoverFork_sound (hok : IndexOk config db.blockIndex)
    (hbottom : db.activeIdAtHeight 0 = some config.anchorHeader.blockId) {id : Hash256}
    {r : BlockIndexRecord} (hr : db.getIndex id = some r) (hsound : Sound db.blockIndex id) :
    ∃ d, discoverFork db id r = .ok d := by
  obtain ⟨d, hd⟩ := discoverForkFrom_sound hok hbottom rfl hr hsound
  refine ⟨d, ?_⟩
  simp only [discoverFork, validateIndexIdentity, bind_eq_ok, ensure_eq_ok, exists_unit]
  exact ⟨hok.ident _ _ hr, hd⟩

/-- The fork of a candidate is on the active chain, below the candidate. -/
theorem Candidate.discovered {s : ChainState} {block : Block} {index : BlockIndexRecord}
    {d : ForkDiscovery} (hc : Candidate s block index) (h : ActiveOk s)
    (hd : discoverFork s.db block.header.blockId index.withBody = .ok d) :
    d.forkHeight ≤ s.tip.height ∧ d.candidate ≠ [] := by
  simp only [discoverFork, validateIndexIdentity, bind_eq_ok, ensure_eq_ok, exists_unit] at hd
  rcases discoverForkFrom_ok hd.2 (.nil _ _) with ⟨-, -, hactive⟩ | ⟨below, _, _, hcand, -, -, -,
    hactive, -⟩
  · exact absurd hactive (hc.not_active h _)
  · exact ⟨h.height_le hactive, by simp [hcand]⟩

end

end Oregon
