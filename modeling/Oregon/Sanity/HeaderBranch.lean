import Oregon.Sanity.Marks
import Oregon.Sanity.Walks
import Oregon.Spec.SyncView

/-! The branch of the preferred header tip: one block at every height, and the same blocks
later on, as long as the tip moves only to blocks above them. -/

namespace Oregon

open Lib

section Ancestors

variable {index : Std.ExtTreeMap Hash256 BlockIndexRecord} {a b id : Hash256}

theorem Ancestor.total (ha : Ancestor index a id) (hb : Ancestor index b id) :
    Ancestor index a b ∨ Ancestor index b a := by
  induction ha with
  | self => exact .inr hb
  | up found high parent ih =>
    rcases hb.eq_or_parent found with rfl | hb
    · exact .inl (.up found high parent)
    · exact ih hb

variable [Crypto] {config : ChainConfig} {ra rb : BlockIndexRecord}

theorem Ancestor.eq_or_lower (hok : IndexOk config index) (h : Ancestor index a b)
    (ha : index[a]? = some ra) (hb : index[b]? = some rb) : a = b ∨ ra.height < rb.height := by
  induction h generalizing rb with
  | self => exact .inl rfl
  | @up b r found high parent ih =>
    obtain rfl := Option.some.inj (found.symm.trans hb)
    rcases hok.linked b r found with rfl | ⟨p, hp, hchild⟩
    · rw [hok.anchor] at found
      obtain rfl := Option.some.inj found
      exact absurd rfl high
    · have hheight := hchild.height
      grind

/-- A block and one that is one higher over another parent have no descendant in common. -/
theorem Ancestor.apart {db : OregonDb} {rc : BlockIndexRecord} {c : Hash256}
    (hok : IndexOk config db.blockIndex) (ha : db.getIndex a = some ra)
    (hb : db.getIndex b = some rb) (hc : db.getIndex c = some rc) (hparent : rb.parent = c)
    (hab : rb.height = ra.height + 1) (hac : ra.height = rc.height) (hne : a ≠ c) (tip : Hash256) :
    ¬ (Ancestor db.blockIndex a tip ∧ Ancestor db.blockIndex b tip) := by
  rintro ⟨hatip, hbtip⟩
  rcases hatip.total hbtip with hup | hdown
  · rcases hup.eq_or_parent hb with rfl | hup
    · simp_all
    · rw [hparent] at hup
      exact (hup.eq_or_lower hok ha hc).elim hne (by omega)
  · rcases hdown.eq_or_lower hok hb ha with rfl | hlt
    · simp_all
    · omega

end Ancestors

section

variable [Crypto] {verifier : SpendVerifier} {s : ChainState}

theorem Evolves.ancestor_mono {index' : Std.ExtTreeMap Hash256 BlockIndexRecord} {a id : Hash256}
    (he : Evolves s index') (h : Ancestor s.db.blockIndex a id) : Ancestor index' a id := by
  induction h with
  | self => exact .self
  | up found high _ ih =>
    obtain ⟨r', hr', hshape⟩ := he.known _ _ found
    exact .up hr' (by rwa [hshape.2.2.1]) (by rwa [hshape.2.1])

/-- `id` is the block of the preferred branch at a height. -/
def OnBranch (s : ChainState) (id : Hash256) (height : ℕ) : Prop :=
  Ancestor s.db.blockIndex id s.headerTip.blockId ∧
    ∃ r, s.db.getIndex id = some r ∧ r.height = height

theorem OnBranch.unique {a b : Hash256} {height : ℕ} (hs : Consistent s)
    (ha : OnBranch s a height) (hb : OnBranch s b height) : a = b := by
  obtain ⟨hatip, ra, hra, hah⟩ := ha
  obtain ⟨hbtip, rb, hrb, hbh⟩ := hb
  rcases hatip.total hbtip with hab | hba
  · exact (hab.eq_or_lower hs.index hra hrb).resolve_right (by omega)
  · exact ((hba.eq_or_lower hs.index hrb hra).resolve_right (by omega)).symm

theorem OnBranch.parent {id : Hash256} {r : BlockIndexRecord} {height : ℕ} (hs : Consistent s)
    (h : OnBranch s id (height + 1)) (hr : s.db.getIndex id = some r) :
    OnBranch s r.parent height := by
  obtain ⟨htip, r', hr', hheight⟩ := h
  obtain rfl := Option.some.inj (hr.symm.trans hr')
  have hhigh : r.height ≠ 0 := by omega
  obtain ⟨p, hp, hchild⟩ := hs.index.parent hr hhigh
  have hdown := hchild.height
  exact ⟨.trans (.up hr hhigh .self) htip, p, hp, by omega⟩

/-- A header that would become the preferred tip builds on the blocks of the preferred
branch above `low` and up to `high`. -/
def KeepsBranch (low high : ℕ) (s : ChainState) (call : Call) : Prop :=
  ∀ header index, call.request.header? = some header →
    candidateRecord s header call.faults = some index →
    s.headerTip.cumulativeWork < index.cumulativeWork →
    ∀ id height, low < height → height ≤ high → OnBranch s id height →
      Ancestor s.db.blockIndex id header.previousBlock

/-- Where the preferred tip is after a call: where it was, or at the block the call brought,
which has more work. -/
theorem Change.headerTip_moves {call : Call} {s' : ChainState} (hs : Consistent s)
    (hopen : Unhindered s call) (h : Change verifier s call.request s') :
    s'.headerTip = s.headerTip ∨
      ∃ header index r, call.request.header? = some header ∧
        candidateRecord s header call.faults = some index ∧
        s.headerTip.cumulativeWork < index.cumulativeWork ∧
        s'.headerTip.blockId = header.blockId ∧ s'.db.getIndex header.blockId = some r ∧
        r.parent = header.previousBlock ∧ r.height ≠ 0 := by
  obtain ⟨request, faults⟩ := call
  cases h with
  | idle => exact .inl rfl
  | sideStored => exact .inl rfl
  | marked => exact .inl rfl
  | pruned => exact .inl rfl
  | @headerStored index fresh =>
    rcases prefer_headerTip_cases { s with db := { s.db with
      blockIndex := s.db.blockIndex.insert index.header.blockId index } } index.tip with
      ⟨hsame, -⟩ | ⟨hmoved, hwork, -⟩
    · exact .inl hsame
    · obtain ⟨p, -, -, hchild⟩ := fresh.link
      have hheight := hchild.height
      refine .inr ⟨index.header, index, index, rfl, fresh.record_eq hopen rfl, hwork, ?_, ?_,
        fresh.parent_eq, by omega⟩
      · exact congrArg Tip.blockId hmoved
      · rw [storeHeader_getIndex, if_pos rfl]
  | @adopted block index forkHeight path undos staged delta adopts =>
    have hcandidate := adopts.candidate
    have htop : (s.reorgTo forkHeight path undos staged delta index.tip).db.getIndex
        block.header.blockId = some index.withBody.validated := by
      rw [reorgTo_getIndex]
      exact adopts.pathOk.lookup_node hcandidate _ _ adopts.pathOk.top_mem
    obtain ⟨p, -, hchild⟩ := hcandidate.link hs.active hs.index
    have hheight := hchild.height
    unfold ChainState.reorgTo at htop ⊢
    rcases prefer_headerTip_cases _ index.tip with ⟨hsame, -⟩ | ⟨hmoved, hwork, -⟩
    · exact .inl hsame
    · refine .inr ⟨block.header, index, _, rfl, hcandidate.record_eq hopen rfl, hwork, ?_, htop,
        hcandidate.parent_eq, ?_⟩
      · rw [hmoved, ← hcandidate.header]
        rfl
      · change index.height ≠ 0
        omega

variable {id : Hash256} {low high height : ℕ}

/-- Under the condition the blocks between `low` and `high` stay on the preferred branch. -/
theorem OnBranch.step {call : Call} (hs : Consistent s) (h : OnBranch s id height)
    (hlow : low < height) (hhigh : height ≤ high) (hkeeps : KeepsBranch low high s call) :
    OnBranch (step verifier s call).1 id height := by
  refine step_rule (Q := fun t => OnBranch t id height) hs call (fun _ => h)
    fun s' hopen hchange => ?_
  have hevolves := hchange.evolves hs
  obtain ⟨r, hr, hheight⟩ := h.2
  obtain ⟨r', hr', hshape⟩ := hevolves.known id r hr
  refine ⟨?_, r', hr', hshape.2.2.1.trans hheight⟩
  rcases hchange.headerTip_moves hs hopen with hsame | ⟨header, index, top, hheader, hindex, hwork,
    hid, htop, hparent, hne⟩
  · rw [hsame]
    exact hevolves.ancestor_mono h.1
  · have hbuilds := hkeeps header index hheader hindex hwork id height hlow hhigh h
    rw [hid]
    refine .up htop hne ?_
    rw [hparent]
    exact hevolves.ancestor_mono hbuilds

theorem OnBranch.run {calls : List Call} (hs : Consistent s) (h : OnBranch s id height)
    (hlow : low < height) (hhigh : height ≤ high)
    (hkeeps : Meets (KeepsBranch low high) verifier s calls) :
    OnBranch (run verifier s calls) id height := by
  refine (hkeeps.run_inv (Q := fun t => Consistent t ∧ OnBranch t id height) ⟨hs, h⟩ ?_).2
  rintro t call hcall ⟨ht, hon⟩
  exact ⟨ht.change (step_change ht call), hon.step ht hlow hhigh hcall⟩

section Reads

theorem walkDown_ancestor (hs : Consistent s) {steps : ℕ} {id a : Hash256} {r : BlockIndexRecord}
    (hr : s.db.getIndex id = some r) (hle : steps ≤ r.height)
    (h : walkDown s.db steps id r = .ok a) :
    Ancestor s.db.blockIndex a id ∧ ∃ q, s.db.getIndex a = some q ∧ q.height + steps = r.height := by
  induction steps generalizing id r with
  | zero =>
    rw [walkDown, pure_eq_ok] at h
    subst h
    exact ⟨.self, r, hr, rfl⟩
  | succ steps ih =>
    rw [walkDown, bind_eq_ok] at h
    obtain ⟨p, hchecked, h⟩ := h
    have hhigh : r.height ≠ 0 := by omega
    obtain ⟨p', hp', hchild⟩ := hs.index.parent hr hhigh
    have hp := checkedIndex_getIndex hchecked
    obtain rfl := Option.some.inj (hp.symm.trans hp')
    have hheight := hchild.height
    obtain ⟨hup, q, hq, hsum⟩ := ih hp (by omega) h
    exact ⟨.up hr hhigh hup, q, hq, by omega⟩

theorem preferredHeaderIdAtHeight_onBranch (hs : Consistent s) {height : ℕ} {id : Hash256}
    (h : s.preferredHeaderIdAtHeight height = .ok (some id)) : OnBranch s id height := by
  obtain ⟨r, hr, htip⟩ := hs.headerTip
  rw [ChainState.preferredHeaderIdAtHeight] at h
  split_ifs at h with habove
  · cases h
  · simp only [ancestorIdAtHeight, bind_eq_ok] at h
    obtain ⟨r', hchecked, h⟩ := h
    obtain rfl := Option.some.inj (hr.symm.trans (checkedIndex_getIndex hchecked))
    split_ifs at h with hlow
    · simp [pure_eq_ok] at h
    · simp only [bind_eq_ok, pure_eq_ok, Option.some.injEq] at h
      obtain ⟨a, hwalk, rfl⟩ := h
      obtain ⟨hancestor, q, hq, hsum⟩ := walkDown_ancestor hs hr (Nat.sub_le ..) hwalk
      exact ⟨hancestor, q, hq, by omega⟩

theorem preferredHeaderAtHeight_onBranch (hs : Consistent s) {height : ℕ} {header : BlockHeader}
    (h : s.preferredHeaderAtHeight height = .ok (some header)) :
    OnBranch s header.blockId height ∧
      ∀ below, height = below + 1 → OnBranch s header.previousBlock below := by
  rw [ChainState.preferredHeaderAtHeight, bind_eq_ok] at h
  obtain ⟨found, hfound, h⟩ := h
  cases found with
  | none => simp [pure_eq_ok] at h
  | some id =>
    simp only [bind_eq_ok, orElse_eq_ok, pure_eq_ok, Option.some.injEq] at h
    obtain ⟨r, hr, rfl⟩ := h
    have hon := preferredHeaderIdAtHeight_onBranch hs hfound
    obtain ⟨hid, hparent⟩ := hs.index.ident id r hr
    rw [hid, ← hparent]
    refine ⟨hon, ?_⟩
    rintro below rfl
    exact hon.parent hs hr

end Reads

end

end Oregon
