import Oregon.Sanity.Marks
import Oregon.Sanity.Sample

/-! The preferred header. Its work is always the largest of all headers that are not
marked invalid, but a failed reorganization may mark the preferred header's own branch
and nothing moves it then. It stays sound in runs that do not mark one of its ancestors
and do not build it on a marked one. -/

namespace Oregon

open Lib

section

variable [Crypto] {verifier : SpendVerifier} {s : ChainState}

/-- No header that is not marked has more work than the preferred one. -/
structure HeaviestHeader (s : ChainState) : Prop where
  max : ∀ id r, s.db.getIndex id = some r → r.validation ≠ .invalid →
    r.cumulativeWork ≤ s.headerTip.cumulativeWork
  tip : s.tip.cumulativeWork ≤ s.headerTip.cumulativeWork

omit [Crypto] in
theorem prefer_work_le {s t : ChainState} (tip : Tip) (h : t.headerTip = s.headerTip) :
    s.headerTip.cumulativeWork ≤ (t.prefer tip).headerTip.cumulativeWork ∧
      tip.cumulativeWork ≤ (t.prefer tip).headerTip.cumulativeWork := by
  grind [prefer_headerTip_cases]

theorem storeHeader_work_le (s : ChainState) (index : BlockIndexRecord) :
    s.headerTip.cumulativeWork ≤ (s.storeHeader index).headerTip.cumulativeWork ∧
      index.cumulativeWork ≤ (s.storeHeader index).headerTip.cumulativeWork := by
  exact prefer_work_le index.tip rfl

omit [Crypto] in
theorem reorgTo_work_le (s : ChainState) (forkHeight : ℕ) (path : List ReorgCandidate)
    (undos : List BlockUndo) (staged : UtxoState) (delta : UtxoDelta) (tip : Tip) :
    s.headerTip.cumulativeWork ≤
        (s.reorgTo forkHeight path undos staged delta tip).headerTip.cumulativeWork ∧
      tip.cumulativeWork ≤
        (s.reorgTo forkHeight path undos staged delta tip).headerTip.cumulativeWork := by
  exact prefer_work_le tip rfl

theorem HeaviestHeader.change {request : Request} {s' : ChainState} (h : HeaviestHeader s)
    (hc : Change verifier s request s') : HeaviestHeader s' := by
  cases hc with
  | idle => exact ⟨h.max, h.tip⟩
  | @headerStored index fresh =>
    obtain ⟨hold, hnew⟩ := storeHeader_work_le s index
    refine ⟨fun id r hr hvalid => ?_, ?_⟩
    · rw [storeHeader_getIndex] at hr
      split_ifs at hr
      · simp_all
      · exact (h.max id r hr hvalid).trans hold
    · rw [show (s.storeHeader index).tip = s.tip from ChainState.prefer_tip _ _]
      exact h.tip.trans hold
  | sideStored candidate _ light =>
    refine ⟨fun id r hr hvalid => ?_, h.tip⟩
    rw [storeSide_getIndex] at hr
    split_ifs at hr
    · obtain rfl := Option.some.inj hr
      exact light.trans h.tip
    · exact h.max id r hr hvalid
  | marked rejects =>
    refine ⟨fun id r hr hvalid => ?_, h.tip⟩
    rcases lookup_pathRecords hr with ⟨-, hold⟩ | ⟨c, -, -, rfl⟩
    · exact h.max id r hold hvalid
    · exact absurd rfl hvalid
  | @adopted block index forkHeight path undos staged delta adopts =>
    obtain ⟨hold, hnew⟩ := reorgTo_work_le s forkHeight path undos staged delta index.tip
    refine ⟨fun id r hr hvalid => ?_, ?_⟩
    · rw [reorgTo_getIndex] at hr
      rcases lookup_pathRecords hr with ⟨-, hprev⟩ | ⟨c, hmem, -, rfl⟩
      · exact (h.max id r hprev hvalid).trans hold
      · exact (adopts.pathOk.work_le c hmem).trans hnew
    · rw [reorgTo_tip]
      exact hnew
  | pruned pruned =>
    refine ⟨fun id r' hr' hvalid => ?_, h.tip⟩
    obtain ⟨r, hr, rfl⟩ := pruned.getIndex_some hr'
    exact h.max id r hr hvalid

/-- The call does not mark the preferred header or an ancestor of it, and does not
prefer a header that descends from a marked one. A call that is refused or whose write
fails is safe. -/
def PreferredSafe (verifier : SpendVerifier) (s : ChainState) (call : Call) : Prop :=
  match call.request with
  | .acceptHeader header => ∀ index, candidateRecord s header call.faults = some index →
      s.headerTip.cumulativeWork < index.cumulativeWork → Sound s.db.blockIndex header.previousBlock
  | .acceptBlock block => ∀ id ∈ rejectedIds verifier s block call.faults,
      ¬ Ancestor s.db.blockIndex id s.headerTip.blockId
  | .prune => True

theorem Change.headerTip_cases {request : Request} {s' : ChainState}
    (hc : Change verifier s request s') :
    s'.headerTip = s.headerTip ∨
    (∃ index, request = .acceptHeader index.header ∧ Fresh s index ∧ s' = s.storeHeader index ∧
      s'.headerTip = index.tip ∧ s.headerTip.cumulativeWork < index.cumulativeWork) ∨
    s'.headerTip = s'.tip := by
  cases hc with
  | @headerStored index fresh =>
    rcases prefer_headerTip_cases _ index.tip with ⟨heq, -, -⟩ | ⟨heq, hlt, -⟩
    · exact Or.inl heq
    · exact Or.inr (Or.inl ⟨index, rfl, fresh, rfl, heq, hlt⟩)
  | @adopted block index forkHeight path undos staged delta adopts =>
    rw [reorgTo_tip]
    rcases prefer_headerTip_cases _ index.tip with ⟨heq, -, -⟩ | ⟨heq, -, -⟩
    · exact Or.inl heq
    · exact Or.inr (Or.inr heq)
  | _ => exact Or.inl rfl

theorem Fresh.sound {index : BlockIndexRecord} (hs : Consistent s) (hfresh : Fresh s index)
    (h : Sound s.db.blockIndex index.header.previousBlock) :
    Sound (s.storeHeader index).db.blockIndex index.header.blockId := by
  have hlookup : ∀ a, (s.storeHeader index).db.blockIndex[a]? =
      if index.header.blockId = a then some index else s.db.getIndex a :=
    storeHeader_getIndex s index
  obtain ⟨p, hp, -, -⟩ := hfresh.link
  rw [hfresh.parent_eq] at hp
  intro a r ha hr
  cases ha with
  | self =>
    rw [hlookup, if_pos rfl] at hr
    obtain rfl := Option.some.inj hr
    rw [hfresh.status]
    decide
  | up found _ hparent =>
    rw [hlookup, if_pos rfl] at found
    obtain rfl := Option.some.inj found
    rw [hfresh.parent_eq] at hparent
    have hevolves : Evolves s (s.storeHeader index).db.blockIndex := by
      rw [ChainState.storeHeader, ChainState.prefer_blockIndex]
      exact hfresh.evolves hs
    obtain ⟨hold, r₀, hr₀⟩ := hevolves.ancestor hs.index hparent ⟨p, hp⟩
    rw [hlookup, if_neg (hfresh.ne_known hr₀)] at hr
    exact h a r hold hr

theorem sound_step {call : Call} (hs : Consistent s)
    (h : Sound s.db.blockIndex s.headerTip.blockId) (hsafe : PreferredSafe verifier s call) :
    Sound (step verifier s call).1.db.blockIndex (step verifier s call).1.headerTip.blockId := by
  refine step_rule (Q := fun t => Sound t.db.blockIndex t.headerTip.blockId) hs call (fun _ => h)
    fun s' hopen hc => ?_
  rcases hc.headerTip_cases with heq | ⟨index, hrequest, hfresh, rfl, heq, hlt⟩ | heq
  · obtain ⟨r₀, hr₀, -⟩ := hs.headerTip
    rw [heq]
    refine h.evolves hs.index (hc.evolves hs) ⟨r₀, hr₀⟩ fun a r r' ha hr hr' hinvalid => ?_
    rcases hc.marked_cases hopen hr hr' hinvalid with hold | ⟨block, hblock, hmem, -⟩
    · exact hold
    · grind [PreferredSafe]
  · rw [heq]
    simp only [PreferredSafe, hrequest] at hsafe
    exact hfresh.sound hs (hsafe index (hfresh.record_eq hopen (by rw [hrequest]; rfl)) hlt)
  · rw [heq]
    exact (hs.change hc).active.sound (hs.change hc).active.top

/-- In every run whose calls are safe for the preferred header, the preferred header is
indexed, neither it nor an ancestor is marked, and it has the largest work of all such
headers, the active tip included. -/
theorem preferred_header_heaviest {config : ChainConfig} {s₀ : ChainState} {calls : List Call}
    (hboot : Bootstrapped config s₀) (hsafe : Meets (PreferredSafe verifier) verifier s₀ calls) :
    (∃ r, (run verifier s₀ calls).db.getIndex (run verifier s₀ calls).headerTip.blockId = some r ∧
      r.tip = (run verifier s₀ calls).headerTip ∧ r.validation ≠ .invalid) ∧
    Sound (run verifier s₀ calls).db.blockIndex (run verifier s₀ calls).headerTip.blockId ∧
    (∀ id r, (run verifier s₀ calls).db.getIndex id = some r →
      Sound (run verifier s₀ calls).db.blockIndex id →
      r.cumulativeWork ≤ (run verifier s₀ calls).headerTip.cumulativeWork) ∧
    (run verifier s₀ calls).tip.cumulativeWork ≤
      (run verifier s₀ calls).headerTip.cumulativeWork := by
  obtain ⟨-, rfl⟩ := bootstrapped_eq hboot
  have hinit : HeaviestHeader (.initial config) := by
    refine ⟨fun id r hr _ => ?_, le_rfl⟩
    rw [initial_getIndex] at hr
    split_ifs at hr
    obtain rfl := Option.some.inj hr
    exact le_rfl
  obtain ⟨hs, hmax, hsound⟩ := hsafe.run_inv (Q := fun t => Consistent t ∧ HeaviestHeader t ∧
      Sound t.db.blockIndex t.headerTip.blockId)
    ⟨.initial config, hinit, (Consistent.initial config).active.sound
      (Consistent.initial config).active.top⟩ (by
      rintro t call hcall ⟨ht, hmax, hsound⟩
      have hchange : Change verifier t call.request _ := step_change ht call
      exact ⟨ht.change hchange, hmax.change hchange, sound_step ht hsound hcall⟩)
  obtain ⟨r, hr, htip⟩ := hs.headerTip
  exact ⟨⟨r, hr, htip, hsound _ r .self hr⟩, hsound,
    fun id r hr hgood => hmax.max id r hr (hgood id r .self hr), hmax.tip⟩

end

open Sample in
/-- The headers of a branch are announced and preferred; then its bodies arrive, the
first one does not connect, and the preferred header is one of the marked blocks. -/
theorem preferred_header_marked : ∃ s₀ r, Bootstrapped config s₀ ∧
    (run verifier s₀ badCalls).sessionHealth = .healthy ∧
    (run verifier s₀ badCalls).headerTip.blockId = badSecond.header.blockId ∧
    (run verifier s₀ badCalls).db.getIndex (run verifier s₀ badCalls).headerTip.blockId = some r ∧
    r.validation = .invalid := by
  have hboot : Bootstrapped config (.initial config) := bootstrapped_initial (by decide +kernel)
  have hmarked : (((run verifier (.initial config) badCalls).db.getIndex
      (run verifier (.initial config) badCalls).headerTip.blockId).map
      BlockIndexRecord.validation) = some .invalid := by
    decide +kernel
  obtain ⟨r, hr, hinvalid⟩ := Option.map_eq_some_iff.mp hmarked
  exact ⟨_, r, hboot, by decide +kernel, by decide +kernel, hr, hinvalid⟩

open Sample in
/-- A branch is rejected while the preferred header is on another one. -/
theorem preferred_header_heaviest_sample : ∃ s₀ : ChainState, Bootstrapped config s₀ ∧
    Meets (PreferredSafe verifier) verifier s₀ rejectCalls ∧
    (run verifier s₀ rejectCalls).headerTip.blockId = second.header.blockId ∧
    Sound (run verifier s₀ rejectCalls).db.blockIndex
      (run verifier s₀ rejectCalls).headerTip.blockId := by
  have hboot : Bootstrapped config (.initial config) := bootstrapped_initial (by decide +kernel)
  have hs : ∀ calls, Consistent (run verifier (.initial config) calls) := fun _ =>
    (run_consistent hboot).1
  have hquiet : ∀ s block, rejectedIds verifier s block (deliver block).faults = [] →
      PreferredSafe verifier s (deliver block) := fun s block hnone id hid => by
    rw [hnone] at hid
    cases hid
  have h₁ : PreferredSafe verifier (.initial config) (deliver first) :=
    hquiet _ _ (by decide +kernel)
  have h₂ : PreferredSafe verifier (run verifier (.initial config) [deliver first])
      (deliver badFirst) := hquiet _ _ (by decide +kernel)
  have h₃ : PreferredSafe verifier (run verifier (.initial config) [deliver first, deliver badFirst])
      (announce second) := fun _ _ _ =>
    (hs _).active.sound (show (run verifier (.initial config) [deliver first, deliver
      badFirst]).db.activeIdAtHeight 1 = some second.header.previousBlock by decide +kernel)
  have h₄ : PreferredSafe verifier (run verifier (.initial config) [deliver first, deliver badFirst,
      announce second]) (deliver badSecond) := by
    have hids : rejectedIds verifier (run verifier (.initial config) [deliver first,
        deliver badFirst, announce second]) badSecond (deliver badSecond).faults =
        [badFirst.header.blockId, badSecond.header.blockId] := by
      decide +kernel
    have hparent : ((run verifier (.initial config) [deliver first, deliver badFirst,
        announce second]).db.getIndex second.header.blockId).map BlockIndexRecord.parent =
        some first.header.blockId := by
      decide +kernel
    have hactive : (List.range 2).map (run verifier (.initial config) [deliver first,
        deliver badFirst, announce second]).db.activeIdAtHeight =
        [some anchor.blockId, some first.header.blockId] := by
      decide +kernel
    have htips : (run verifier (.initial config) [deliver first, deliver badFirst,
          announce second]).headerTip.blockId = second.header.blockId ∧
        (run verifier (.initial config) [deliver first, deliver badFirst,
          announce second]).tip.height = 1 := by
      decide +kernel
    intro id hid hup
    rw [hids] at hid
    rw [htips.1] at hup
    obtain ⟨r, hr, hfirst⟩ := Option.map_eq_some_iff.mp hparent
    rcases hup.eq_or_parent hr with rfl | hup
    · revert hid
      decide +kernel
    · -- the parent of the preferred header is active, the rejected blocks are not
      simp only [List.range_succ, List.range_zero, List.map_cons, List.map_nil,
        List.nil_append, List.cons_append, List.cons.injEq, and_true] at hactive
      rw [hfirst] at hup
      obtain ⟨height, hheight⟩ := (hs _).active.ancestor hup ⟨1, hactive.2⟩
      have hle : height ≤ 1 := by
        by_contra hlt
        rw [(hs _).active.above height (by rw [htips.2]; omega)] at hheight
        cases hheight
      obtain rfl | rfl : height = 0 ∨ height = 1 := by omega
      · obtain rfl := Option.some.inj (hactive.1.symm.trans hheight)
        revert hid
        decide +kernel
      · obtain rfl := Option.some.inj (hactive.2.symm.trans hheight)
        revert hid
        decide +kernel
  have hone : Meets (PreferredSafe verifier) verifier (.initial config) [deliver first] :=
    Meets.nil.snoc h₁
  have htwo : Meets (PreferredSafe verifier) verifier (.initial config)
      [deliver first, deliver badFirst] := hone.snoc h₂
  have hthree : Meets (PreferredSafe verifier) verifier (.initial config)
      [deliver first, deliver badFirst, announce second] := htwo.snoc h₃
  have hsafe : Meets (PreferredSafe verifier) verifier (.initial config) rejectCalls :=
    hthree.snoc h₄
  exact ⟨_, hboot, hsafe, by decide +kernel, (preferred_header_heaviest hboot hsafe).2.1⟩

end Oregon
