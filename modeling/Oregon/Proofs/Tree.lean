import Oregon.Sanity.Sample
import Oregon.Sanity.Walks

/-! The block index is a tree. Every record but the anchor's follows its parent by the
header rules on its own branch, and the active mapping is the way from the anchor to
the tip. A branch, once indexed, never changes: records are only rewritten in their
status and their body flag. -/

namespace Oregon

open Lib

/-- The headers of `id` and of the blocks below it, `count` at most. -/
def branchHeaders (index : Std.ExtTreeMap Hash256 BlockIndexRecord) : ℕ → Hash256 → List BlockHeader
  | 0, _ => []
  | count + 1, id =>
    match index[id]? with
    | none => []
    | some r => r.header :: if r.height = 0 then [] else branchHeaders index count r.parent

/-- The last timestamps of the branch that the child `r` of an indexed block is on. -/
def branchWindow (index : Std.ExtTreeMap Hash256 BlockIndexRecord) (r : BlockIndexRecord) :
    List UInt64 :=
  (branchHeaders index (min 11 r.height) r.parent).map BlockHeader.timestamp

/-- A record that follows its parent by the header rules. -/
structure Follows (config : ChainConfig) (index : Std.ExtTreeMap Hash256 BlockIndexRecord)
    (p r : BlockIndexRecord) (target : Target) (median : UInt64) : Prop where
  parent : index[r.parent]? = some p
  height : r.height = p.height + 1
  commitment : Target.fromLeBytes r.header.difficultyCommitment = .ok target
  work : r.cumulativeWork = p.cumulativeWork + blockWork target
  required : requiredTarget r.height p.header.timestamp config.genesisTimestamp config.params =
    .ok target
  window : (branchWindow index r).length = min 11 r.height
  medianTime : medianTimePast (branchWindow index r) = .ok median
  time : median < r.header.timestamp

theorem branchHeaders_succ {index : Std.ExtTreeMap Hash256 BlockIndexRecord} {id : Hash256}
    {r : BlockIndexRecord} (hr : index[id]? = some r) (count : ℕ) :
    branchHeaders index (count + 1) id =
      r.header :: if r.height = 0 then [] else branchHeaders index count r.parent := by
  rw [branchHeaders, hr]

theorem timestampsFrom_eq {db : OregonDb} {count : ℕ} {id : Hash256} {window : List UInt64}
    (h : timestampsFrom db count id = .ok window) :
    window = (branchHeaders db.blockIndex count id).map BlockHeader.timestamp := by
  induction count generalizing id window with
  | zero => exact (pure_eq_ok.mp h).symm
  | succ count ih =>
    simp only [timestampsFrom, bind_eq_ok] at h
    obtain ⟨r, hchecked, h⟩ := h
    rw [branchHeaders_succ (checkedIndex_getIndex hchecked)]
    split_ifs at h ⊢ with hheight
    · exact (pure_eq_ok.mp h).symm
    · simp only [bind_eq_ok, pure_eq_ok] at h
      grind

section

variable [Crypto] {config : ChainConfig} {index : Std.ExtTreeMap Hash256 BlockIndexRecord}
  {s : ChainState}

theorem branchHeaders_length (hok : IndexOk config index) {id : Hash256} {r : BlockIndexRecord}
    (hr : index[id]? = some r) (count : ℕ) :
    (branchHeaders index count id).length = min count (r.height + 1) := by
  induction count generalizing id r with
  | zero => simp [branchHeaders]
  | succ count ih =>
    rw [branchHeaders_succ hr, List.length_cons]
    split_ifs with hheight
    · simp [hheight]
    · rcases hok.linked id r hr with rfl | ⟨p, hp, hchild⟩
      · obtain rfl := Option.some.inj (hr.symm.trans hok.anchor)
        exact absurd rfl hheight
      · rw [ih hp, hchild.height]
        omega

theorem branchHeaders_min (hok : IndexOk config index) {id : Hash256} {r : BlockIndexRecord}
    (hr : index[id]? = some r) (count : ℕ) :
    branchHeaders index (min count (r.height + 1)) id = branchHeaders index count id := by
  induction count generalizing id r with
  | zero => simp
  | succ count ih =>
    rw [Nat.succ_min_succ, branchHeaders_succ hr, branchHeaders_succ hr]
    split_ifs with hheight
    · rfl
    · rcases hok.linked id r hr with rfl | ⟨p, hp, hchild⟩
      · obtain rfl := Option.some.inj (hr.symm.trans hok.anchor)
        exact absurd rfl hheight
      · rw [hchild.height, ih hp]

theorem Evolves.branchHeaders_eq {index' : Std.ExtTreeMap Hash256 BlockIndexRecord}
    (he : Evolves s index') (hok : IndexOk s.config s.db.blockIndex) {id : Hash256}
    {r : BlockIndexRecord} (hr : s.db.getIndex id = some r) (count : ℕ) :
    branchHeaders index' count id = branchHeaders s.db.blockIndex count id := by
  induction count generalizing id r with
  | zero => rfl
  | succ count ih =>
    obtain ⟨r', hr', hshape⟩ := he.known id r hr
    rw [branchHeaders_succ hr', branchHeaders_succ hr, hshape.1, hshape.2.1, hshape.2.2.1]
    split_ifs with hheight
    · rfl
    · obtain ⟨p, hp, -⟩ := hok.parent hr hheight
      rw [ih hp]

theorem Fresh.follows {r : BlockIndexRecord} (h : Fresh s r)
    (hok : IndexOk s.config s.db.blockIndex) :
    ∃ p target median, Follows s.config s.db.blockIndex p r target median := by
  obtain ⟨engine, h⟩ := h.checked
  simp only [validateCandidateHeader, bind_eq_ok, ensure_eq_ok, exists_and_left, exists_const,
    orElse_eq_ok, mapError_eq_ok, pure_eq_ok] at h
  obtain ⟨p, hp, -, window, hwindow, height, hadd, facts, hfacts, _, -, _, -, _, -, _, -, hr⟩ := h
  obtain ⟨rfl, -⟩ := checkedAdd_eq_some.mp hadd
  simp only [validateHeaderPrePow, Target.validateAgainst, bind_eq_ok, ensure_eq_ok,
    exists_and_left, exists_const, pure_eq_ok] at hfacts
  obtain ⟨-, -, median, hmedian, htime, target, hrequired, actual, hactual, -, rfl, rfl⟩ := hfacts
  have hparent : r.parent = r.header.previousBlock := by rw [← hr]
  have hheight : r.height = p.height + 1 := by rw [← hr]
  have hwindow : branchWindow s.db.blockIndex r = window := by
    rw [timestampsFrom_eq hwindow, branchWindow, hparent, hheight, branchHeaders_min hok hp]
  refine ⟨p, actual, median, hparent ▸ hp, hheight, hactual, by rw [← hr], hheight ▸ hrequired, ?_,
    hwindow ▸ hmedian, htime⟩
  rw [branchWindow, List.length_map, hparent, branchHeaders_length hok hp, ← hheight]
  omega

theorem Follows.evolves {index' : Std.ExtTreeMap Hash256 BlockIndexRecord}
    {p r r' : BlockIndexRecord} {target : Target} {median : UInt64}
    (h : Follows s.config s.db.blockIndex p r target median) (he : Evolves s index')
    (hok : IndexOk s.config s.db.blockIndex) (hshape : SameShape r r') :
    ∃ p', Follows s.config index' p' r' target median := by
  obtain ⟨p', hp', hpshape⟩ := he.known _ p h.parent
  have hwindow : branchWindow index' r' = branchWindow s.db.blockIndex r := by
    rw [branchWindow, branchWindow, hshape.2.1, hshape.2.2.1, he.branchHeaders_eq hok h.parent]
  refine ⟨p', hshape.2.1 ▸ hp', ?_, hshape.1 ▸ h.commitment, ?_, ?_, ?_, hwindow ▸ h.medianTime, ?_⟩
  · rw [hshape.2.2.1, hpshape.2.2.1, h.height]
  · rw [hshape.2.2.2, hpshape.2.2.2, h.work]
  · rw [hshape.2.2.1, hpshape.1, h.required]
  · rw [hwindow, hshape.2.2.1, h.window]
  · rw [hshape.1]
    exact h.time

/-- Every record but the anchor's follows an indexed one. -/
def Grown (s : ChainState) : Prop :=
  ∀ id r, s.db.getIndex id = some r → id ≠ s.config.anchorHeader.blockId →
    ∃ p target median, Follows s.config s.db.blockIndex p r target median

theorem Grown.change {verifier : SpendVerifier} {request : Request} {s' : ChainState}
    (hs : Consistent s) (h : Grown s) (hc : Change verifier s request s') : Grown s' := by
  intro id r' hr' hne
  have he := hc.evolves hs
  rw [hc.config_eq] at hne ⊢
  obtain ⟨r, hr | ⟨hfresh, -⟩, hshape⟩ := he.source id r' hr'
  · obtain ⟨p, target, median, hfollows⟩ := h id r hr hne
    obtain ⟨p', hp'⟩ := hfollows.evolves he hs.index hshape
    exact ⟨p', target, median, hp'⟩
  · obtain ⟨p, target, median, hfollows⟩ := hfresh.follows hs.index
    obtain ⟨p', hp'⟩ := hfollows.evolves he hs.index hshape
    exact ⟨p', target, median, hp'⟩

theorem IndexOk.anchor_ancestor (hok : IndexOk config index) {id : Hash256} {r : BlockIndexRecord}
    (hr : index[id]? = some r) : Ancestor index config.anchorHeader.blockId id := by
  induction hheight : r.height generalizing id r with
  | zero =>
    rcases hok.linked id r hr with rfl | ⟨p, -, hchild⟩
    · exact .self
    · cases hheight.symm.trans hchild.height
  | succ n ih =>
    rcases hok.linked id r hr with rfl | ⟨p, hp, hchild⟩
    · exact .self
    · exact .up hr (by omega) (ih hp (Nat.succ.inj (hchild.height.symm.trans hheight)))

/-- The active blocks are the ancestors of the tip, each at its height. -/
theorem ActiveOk.mapping (h : ActiveOk s) (height : ℕ) (id : Hash256) :
    s.db.activeIdAtHeight height = some id ↔
      Ancestor s.db.blockIndex id s.tip.blockId ∧
        ∃ r, s.db.getIndex id = some r ∧ r.height = height := by
  constructor
  · intro hid
    obtain ⟨r, hr, hheight, -⟩ := h.record height id hid
    exact ⟨h.descends (h.height_le hid) hid h.top, r, hr, hheight⟩
  · rintro ⟨hup, r, hr, rfl⟩
    obtain ⟨k, hk⟩ := h.ancestor hup ⟨_, h.top⟩
    obtain ⟨r', hr', rfl, -⟩ := h.record k id hk
    simp_all

/-- In every state of every run the index is a tree over the anchor in which every other
record follows its parent by the header rules on its own branch, and the active mapping
is the one way from the anchor to the tip. -/
theorem index_is_tree {verifier : SpendVerifier} {s₀ : ChainState} {calls : List Call}
    (hboot : Bootstrapped config s₀) :
    (run verifier s₀ calls).db.getIndex config.anchorHeader.blockId = some (anchorRecord config) ∧
    (∀ id r, (run verifier s₀ calls).db.getIndex id = some r →
      Ancestor (run verifier s₀ calls).db.blockIndex config.anchorHeader.blockId id ∧
      (id ≠ config.anchorHeader.blockId → ∃ p target median,
        Follows config (run verifier s₀ calls).db.blockIndex p r target median)) ∧
    (∀ height id, (run verifier s₀ calls).db.activeIdAtHeight height = some id ↔
      Ancestor (run verifier s₀ calls).db.blockIndex id (run verifier s₀ calls).tip.blockId ∧
      ∃ r, (run verifier s₀ calls).db.getIndex id = some r ∧ r.height = height) ∧
    (∀ height, (∃ id, (run verifier s₀ calls).db.activeIdAtHeight height = some id) ↔
      height ≤ (run verifier s₀ calls).tip.height) ∧
    (run verifier s₀ calls).db.activeIdAtHeight 0 = some config.anchorHeader.blockId ∧
    (run verifier s₀ calls).db.activeIdAtHeight (run verifier s₀ calls).tip.height =
      some (run verifier s₀ calls).tip.blockId := by
  have hgrown : Consistent (run verifier s₀ calls) ∧ Grown (run verifier s₀ calls) := by
    obtain ⟨-, rfl⟩ := bootstrapped_eq hboot
    refine run_inv (P := fun t => Consistent t ∧ Grown t) ⟨.initial config, fun id r hr hne => ?_⟩ ?_
    · rw [initial_getIndex] at hr
      split_ifs at hr with hid
      exact absurd hid.symm hne
    · rintro t call - ⟨ht, hgrown⟩
      have hchange : Change verifier t call.request _ := step_change ht call
      exact ⟨ht.change hchange, hgrown.change ht hchange⟩
  obtain ⟨hs, hgrown⟩ := hgrown
  have hconfig : (run verifier s₀ calls).config = config := (run_consistent hboot).2
  have hindex := hs.index
  rw [Grown, hconfig] at hgrown
  rw [hconfig] at hindex
  refine ⟨hindex.anchor, fun id r hr => ⟨hindex.anchor_ancestor hr, hgrown id r hr⟩,
    hs.active.mapping, fun height => ⟨fun h => h.elim fun _ hid => hs.active.height_le hid,
      hs.active.defined⟩,
    hconfig ▸ hs.active.bottom, hs.active.top⟩

end

section Sample

open Sample

def rivalSecondRecord : BlockIndexRecord where
  header := rivalSecond.header
  parent := rivalFirst.header.blockId
  height := 2
  cumulativeWork := 2
  validation := .fullyValidated
  bodyRetained := true

theorem index_is_tree_sample : ∃ s₀ p target median, Bootstrapped config s₀ ∧
    (run verifier s₀ forkCalls).db.activeIdAtHeight 3 = none ∧
    Follows config (run verifier s₀ forkCalls).db.blockIndex p rivalSecondRecord target median := by
  have hboot : Bootstrapped config (.initial config) := bootstrapped_initial (by decide +kernel)
  have hrecord : (run verifier (.initial config) forkCalls).db.getIndex rivalSecond.header.blockId =
      some rivalSecondRecord := by decide +kernel
  obtain ⟨-, htree, -⟩ := @index_is_tree _ config verifier _ forkCalls hboot
  obtain ⟨p, target, median, hfollows⟩ := (htree _ _ hrecord).2 (by decide +kernel)
  exact ⟨_, p, target, median, hboot, by decide +kernel, hfollows⟩

end Sample

end Oregon
