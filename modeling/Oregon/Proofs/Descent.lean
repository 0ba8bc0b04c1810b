import Oregon.Sanity.Sample
import Oregon.Sanity.Walks

/-! Invalidity and descent. A failed reorganization marks the end of the one path it
tried, so other children of a marked block keep their status. In runs where a rejected
block has no other child, a block under a marked one is marked, and then no walk over
the index fails on a record that is not marked. -/

namespace Oregon

open Lib

section

variable [Crypto] {verifier : SpendVerifier} {s : ChainState}

/-- A block whose parent is marked invalid is marked invalid. -/
def InvalidClosed (s : ChainState) : Prop :=
  ∀ id r p, s.db.getIndex id = some r → r.height ≠ 0 → s.db.getIndex r.parent = some p →
    p.validation = .invalid → r.validation = .invalid

/-- The children of the blocks that the call marks are marked already or with them. -/
def MarksDescendants (verifier : SpendVerifier) (s : ChainState) (call : Call) : Prop :=
  match call.request with
  | .acceptBlock block => ∀ id r, s.db.getIndex id = some r → r.height ≠ 0 →
      r.parent ∈ rejectedIds verifier s block call.faults →
      r.validation = .invalid ∨ id ∈ rejectedIds verifier s block call.faults
  | _ => True

theorem InvalidClosed.step {call : Call} (hs : Consistent s) (h : InvalidClosed s)
    (hmarks : MarksDescendants verifier s call) : InvalidClosed (step verifier s call).1 := by
  refine step_rule hs call (fun _ => h) fun s' hopen hc => ?_
  intro id r' p' hr' hheight hp' hinvalid
  obtain ⟨r, hsource, hshape⟩ := (hc.evolves hs).source id r' hr'
  rw [hshape.2.2.1] at hheight
  rw [hshape.2.1] at hp'
  -- the parent was known before the call
  have hparent : ∃ p, s.db.getIndex r.parent = some p ∧
      (s.db.getIndex id = some r ∨ p.validation ≠ .invalid) := by
    rcases hsource with hr | ⟨hfresh, -⟩
    · obtain ⟨p, hp, -⟩ := hs.index.parent hr hheight
      exact ⟨p, hp, Or.inl hr⟩
    · obtain ⟨p, hp, hvalid, -⟩ := hfresh.link
      exact ⟨p, hp, Or.inr hvalid⟩
  obtain ⟨p, hp, hknown⟩ := hparent
  rcases hc.marked_cases hopen hp hp' hinvalid with hold | ⟨block, hblock, hmem, hall⟩
  · rcases hknown with hr | hvalid
    · exact hc.stays_marked hr (h id r p hr hheight hp hold) hr'
    · exact absurd hold hvalid
  · rcases hall id r' hr' with ⟨hnot, hsame⟩ | ⟨-, hmarked⟩
    · simp only [MarksDescendants, hblock] at hmarks
      rcases hmarks id r' hsame (hshape.2.2.1.trans_ne hheight) (hshape.2.1 ▸ hmem) with hmarked | hin
      · exact hmarked
      · exact absurd hin hnot
    · exact hmarked

omit [Crypto] in
theorem InvalidClosed.sound (h : InvalidClosed s) {id : Hash256} {r : BlockIndexRecord}
    (hr : s.db.getIndex id = some r) (hvalid : r.validation ≠ .invalid) :
    Sound s.db.blockIndex id := by
  intro a q ha
  induction ha generalizing r with
  | self =>
    intro hq
    rwa [Option.some.inj (hq.symm.trans hr)]
  | @up id r₀ found high hup ih =>
    obtain rfl := Option.some.inj (hr.symm.trans found)
    intro hq
    cases hp : s.db.getIndex r.parent with
    | none =>
      -- the walk has ended below an unknown parent, so it ended there
      cases hup with
      | self => cases hp.symm.trans hq
      | up found' _ _ => cases hp.symm.trans found'
    | some p => exact ih hp (fun hinvalid => hvalid (h id r p hr high hp hinvalid)) hq

section Prune

variable {db : OregonDb} {tipHeight : ℕ} {acc acc' : StorageBatch × PruneReport}

omit [Crypto] in
theorem pruneBody_count {id : Hash256} {r : BlockIndexRecord} {keep : Bool}
    (h : pruneBody id r keep acc = .ok acc') :
    acc'.2.deletedBodies ≤ acc.2.deletedBodies + 1 ∧
      acc'.2.deletedUndos = acc.2.deletedUndos := by
  unfold pruneBody at h
  split_ifs at h
  · rw [← pure_eq_ok.mp h]
    exact ⟨Nat.le_succ _, rfl⟩
  · simp only [bind_eq_ok, orElse_eq_ok, pure_eq_ok] at h
    obtain ⟨n, hn, rfl⟩ := h
    exact ⟨(checkedAdd_eq_some.mp hn).1.symm.le, rfl⟩

omit [Crypto] in
theorem pruneUndo_count {id : Hash256} {keep : Bool} (h : pruneUndo db id keep acc = .ok acc') :
    acc'.2.deletedBodies = acc.2.deletedBodies ∧
      acc'.2.deletedUndos ≤ acc.2.deletedUndos + 1 := by
  unfold pruneUndo at h
  split at h
  · simp only [bind_eq_ok, orElse_eq_ok, pure_eq_ok] at h
    obtain ⟨n, hn, rfl⟩ := h
    exact ⟨rfl, (checkedAdd_eq_some.mp hn).1.symm.le⟩
  · cases h
  · rw [← pure_eq_ok.mp h]
    exact ⟨rfl, Nat.le_succ _⟩

theorem pruneRecord_count {e : Hash256 × BlockIndexRecord}
    (h : pruneRecord db tipHeight acc e = .ok acc') :
    acc'.2.deletedBodies ≤ acc.2.deletedBodies + 1 ∧
      acc'.2.deletedUndos ≤ acc.2.deletedUndos + 1 := by
  simp only [pruneRecord, bind_eq_ok] at h
  obtain ⟨_, -, _, -, _, -, _, -, mid, hmid, h⟩ := h
  obtain ⟨hbodies, hundos⟩ := pruneBody_count hmid
  grind [pruneUndo_count]

theorem getBlock_none {id : Hash256} (h : db.getBlock id = .ok none) : db.blocks[id]? = none := by
  unfold OregonDb.getBlock at h
  split at h
  · next hnone => exact hnone
  · simp only [bind_eq_ok, pure_eq_ok, reduceCtorEq, and_false, exists_false] at h

/-- The decision about the body of a record on a sound branch, or of a marked one, is
made without an error. -/
theorem retainBody_returns (hs : Consistent s) {id : Hash256} {r : BlockIndexRecord}
    {isActive : Bool} (hr : s.db.getIndex id = some r)
    (hsound : r.validation ≠ .invalid → Sound s.db.blockIndex id) :
    ∃ keep, retainBody s.db tipHeight isActive id r = .ok keep := by
  unfold retainBody
  split_ifs with hdrop hactive
  · exact ⟨false, rfl⟩
  · exact ⟨_, rfl⟩
  · obtain ⟨d, hd⟩ := discoverFork_sound hs.index hs.active.bottom hr
      (hsound fun hinvalid => hdrop (Or.inl hinvalid))
    rw [hd]
    exact ⟨_, rfl⟩

theorem pruneRecord_not_corrupt (hs : Consistent s) {id : Hash256} {r : BlockIndexRecord}
    (hr : s.db.getIndex id = some r) (hbody : r.bodyRetained = true)
    (hsound : r.validation ≠ .invalid → Sound s.db.blockIndex id)
    (hbodies : acc.2.deletedBodies + 1 < 2 ^ 64) (hundos : acc.2.deletedUndos + 1 < 2 ^ 64)
    (message : String) :
    pruneRecord s.db tipHeight acc (id, r) ≠ .error (.corruptState message) := by
  intro h
  simp only [pruneRecord, bind_eq_error, ensure_eq_error, mapError_eq_error, reduceCtorEq,
    and_false, exists_false, false_or] at h
  rcases h with ⟨hactive, -⟩ | ⟨-, -, ⟨body, hget, ⟨hmissing, -⟩ | ⟨-, -, hretain | ⟨keep, -, h⟩⟩⟩⟩
  · rw [not_not, decide_eq_true_eq] at hactive
    obtain ⟨r', hr', -, hfull, -⟩ := hs.active.record _ _ hactive.1
    simp_all
  · obtain ⟨b, hb, -⟩ := hs.bodies id r hr hbody
    have hnone : body = none := by simpa using hmissing
    grind [mapError_eq_ok, getBlock_none]
  · obtain ⟨keep, hkeep⟩ : ∃ keep, retainBody s.db tipHeight
        (decide (s.db.activeIdAtHeight r.height = some id)) id r = .ok keep :=
      retainBody_returns hs hr hsound
    cases hkeep.symm.trans hretain
  · rcases h with h | ⟨mid, hmid, h⟩
    · unfold pruneBody at h
      split_ifs at h
      · cases h
      · rw [checkedAdd_eq_some.mpr ⟨rfl, hbodies⟩] at h
        cases h
    · have hcount := (pruneBody_count hmid).2
      unfold pruneUndo at h
      split at h
      · rw [hcount, checkedAdd_eq_some.mpr ⟨rfl, hundos⟩] at h
        cases h
      · cases h
      · cases h

theorem planPrune_not_corrupt (hs : Consistent s) (hsize : s.db.blockIndex.size < 2 ^ 64)
    (hsound : ∀ id r, s.db.getIndex id = some r → r.validation ≠ .invalid →
      Sound s.db.blockIndex id) (message : String) :
    planPrune s.db tipHeight ≠ .error (.corruptState message) := by
  -- the counts stay below the number of records looked at
  have hfold : ∀ (l : List (Hash256 × BlockIndexRecord)) (acc : StorageBatch × PruneReport),
      (∀ e ∈ l, s.db.getIndex e.1 = some e.2 ∧ e.2.bodyRetained = true) →
      acc.2.deletedBodies + l.length < 2 ^ 64 → acc.2.deletedUndos + l.length < 2 ^ 64 →
      l.foldlM (pruneRecord s.db tipHeight) acc ≠ .error (.corruptState message) := by
    intro l
    induction l with
    | nil =>
      intro acc _ _ _ h
      cases h
    | cons e l ih =>
      intro acc hmem hbodies hundos h
      rw [List.length_cons] at hbodies hundos
      obtain ⟨hr, hbody⟩ := hmem e (List.mem_cons_self ..)
      rw [List.foldlM_cons, bind_eq_error] at h
      rcases h with h | ⟨mid, hmid, h⟩
      · exact pruneRecord_not_corrupt hs hr hbody (hsound e.1 e.2 hr) (by omega) (by omega) message h
      · obtain ⟨hb, hu⟩ := pruneRecord_count hmid
        exact ih mid (fun a ha => hmem a (List.mem_cons_of_mem _ ha)) (by omega) (by omega) h
  have hlength : s.db.iterBodyRetainedIndices.length ≤ s.db.blockIndex.size := by
    rw [← Std.ExtTreeMap.length_toList]
    exact List.length_filter_le _ _
  intro h
  simp only [planPrune, bind_eq_error, pure, Except.pure, reduceCtorEq, and_false, exists_false,
    or_false] at h
  refine hfold _ _ (fun e he => mem_iterBodyRetainedIndices.mp he) ?_ ?_ h
  · simpa using hlength.trans_lt hsize
  · simpa using hlength.trans_lt hsize

end Prune

/-- In every run that marks the children of what it marks, invalidity is closed under
descent; and then the branch view, the search for a fork and pruning take no record
that is not marked for a corrupt one. -/
theorem invalidity_closed_under_descent {config : ChainConfig} {s₀ : ChainState}
    {calls : List Call} (hboot : Bootstrapped config s₀)
    (hmarks : Meets (MarksDescendants verifier) verifier s₀ calls) :
    InvalidClosed (run verifier s₀ calls) ∧
    (∀ id r, (run verifier s₀ calls).db.getIndex id = some r → r.validation ≠ .invalid →
      checkedIndex (run verifier s₀ calls).db id = .ok r ∧
      (∀ height, ∃ found, ancestorIdAtHeight (run verifier s₀ calls).db id height = .ok found) ∧
      (∃ window, mtpWindow (run verifier s₀ calls).db id = .ok window) ∧
      ∃ d, discoverFork (run verifier s₀ calls).db id r = .ok d) ∧
    ((run verifier s₀ calls).db.blockIndex.size < 2 ^ 64 → ∀ message,
      planPrune (run verifier s₀ calls).db (run verifier s₀ calls).tip.height ≠
        .error (.corruptState message)) := by
  obtain ⟨-, rfl⟩ := bootstrapped_eq hboot
  have hinit : InvalidClosed (.initial config) := by
    intro id r p hr hheight
    rw [initial_getIndex] at hr
    split_ifs at hr
    obtain rfl := Option.some.inj hr
    exact absurd rfl hheight
  obtain ⟨hs, hclosed⟩ := hmarks.run_inv (Q := fun t => Consistent t ∧ InvalidClosed t)
    ⟨.initial config, hinit⟩ (by
      rintro t call hcall ⟨ht, hclosed⟩
      have hchange : Change verifier t call.request _ := step_change ht call
      exact ⟨ht.change hchange, hclosed.step ht hcall⟩)
  refine ⟨hclosed, fun id r hr hvalid => ?_, fun hsize => planPrune_not_corrupt hs hsize
    fun id r hr hvalid => hclosed.sound hr hvalid⟩
  have hsound := hclosed.sound hr hvalid
  refine ⟨checkedIndex_ok hs.index hr hsound, fun height => ?_,
    timestampsFrom_ok hs.index hr hsound, discoverFork_sound hs.index hs.active.bottom hr hsound⟩
  obtain ⟨found, hfound, -⟩ := ancestorIdAtHeight_ok hs.index hr hsound height
  exact ⟨found, hfound⟩

end

open Sample in
/-- The heavier of two branches on a bad block is tried and marked with it. The other
one keeps its status under a marked parent, and from then on a prune fails. -/
theorem invalidity_not_closed : ∃ s₀ : ChainState, Bootstrapped config s₀ ∧
    (run verifier s₀ siblingCalls).sessionHealth = .healthy ∧
    ((run verifier s₀ siblingCalls).db.getIndex badSibling.header.blockId).map
      (fun r => (r.validation, r.parent)) = some (.headerValidated, badFirst.header.blockId) ∧
    ((run verifier s₀ siblingCalls).db.getIndex badFirst.header.blockId).map
      BlockIndexRecord.validation = some .invalid ∧
    (step verifier (run verifier s₀ siblingCalls) ⟨.prune, .none⟩).2 = .error (.corruptState
      ("candidate block " ++ badSibling.header.blockId.debug ++
        " descends from invalid parent " ++ badFirst.header.blockId.debug)) := by
  have hboot : Bootstrapped config (.initial config) := bootstrapped_initial (by decide +kernel)
  exact ⟨_, hboot, by decide +kernel, by decide +kernel, by decide +kernel, by decide +kernel⟩

open Sample in
/-- The branch that is rejected is the only one on its first block. -/
theorem invalidity_closed_under_descent_sample : ∃ s₀ : ChainState, Bootstrapped config s₀ ∧
    Meets (MarksDescendants verifier) verifier s₀ rejectCalls ∧
    ((run verifier s₀ rejectCalls).db.getIndex badFirst.header.blockId).map
      BlockIndexRecord.validation = some .invalid ∧
    InvalidClosed (run verifier s₀ rejectCalls) := by
  have hboot : Bootstrapped config (.initial config) := bootstrapped_initial (by decide +kernel)
  have hquiet : ∀ s block, rejectedIds verifier s block (deliver block).faults = [] →
      MarksDescendants verifier s (deliver block) := fun s block hnone id r _ _ hmem => by
    rw [hnone] at hmem
    cases hmem
  have h₁ : MarksDescendants verifier (.initial config) (deliver first) :=
    hquiet _ _ (by decide +kernel)
  have h₂ : MarksDescendants verifier (run verifier (.initial config) [deliver first])
      (deliver badFirst) := hquiet _ _ (by decide +kernel)
  have h₄ : MarksDescendants verifier (run verifier (.initial config) [deliver first,
      deliver badFirst, announce second]) (deliver badSecond) := by
    have hall : ∀ e ∈ (run verifier (.initial config) [deliver first, deliver badFirst,
        announce second]).db.blockIndex.toList, e.2.parent ∉ rejectedIds verifier
        (run verifier (.initial config) [deliver first, deliver badFirst, announce second])
        badSecond (deliver badSecond).faults := by
      decide +kernel
    intro id r hr _ hmem
    exact absurd hmem (hall (id, r) (Std.ExtTreeMap.mem_toList_iff_getElem?_eq_some.mpr hr))
  have hone : Meets (MarksDescendants verifier) verifier (.initial config) [deliver first] :=
    Meets.nil.snoc h₁
  have htwo : Meets (MarksDescendants verifier) verifier (.initial config)
      [deliver first, deliver badFirst] := hone.snoc h₂
  have hthree : Meets (MarksDescendants verifier) verifier (.initial config)
      [deliver first, deliver badFirst, announce second] := htwo.snoc trivial
  have hmarks : Meets (MarksDescendants verifier) verifier (.initial config) rejectCalls :=
    hthree.snoc h₄
  exact ⟨_, hboot, hmarks, by decide +kernel, (invalidity_closed_under_descent hboot hmarks).1⟩

end Oregon
