import Oregon.Sanity.Delta
import Oregon.Sanity.Pruning

/-! What holds in every state a node can reach, whatever it is sent: the index is a
tree over the anchor, the active mapping is one path through fully validated records
up to the tip, the tips in memory are the stored ones and a retained body is there.
`Consistent` is kept by every effect, so by every run. -/

namespace Oregon

open Lib

section

variable [Crypto]

/-- `r` is the record of `id`, or that of a header that has just passed its checks. -/
def Source (s : ChainState) (id : Hash256) (r : BlockIndexRecord) : Prop :=
  s.db.getIndex id = some r ∨ Fresh s r ∧ r.header.blockId = id

/-- An index that differs in statuses and flags and may have a new header. -/
structure Evolves (s : ChainState) (index' : Std.ExtTreeMap Hash256 BlockIndexRecord) : Prop where
  known : ∀ (id : Hash256) (r : BlockIndexRecord), s.db.blockIndex[id]? = some r →
    ∃ r', index'[id]? = some r' ∧ SameShape r r'
  source : ∀ (id : Hash256) (r' : BlockIndexRecord), index'[id]? = some r' →
    ∃ r, Source s id r ∧ SameShape r r'
  anchor : index'[s.config.anchorHeader.blockId]? = s.db.blockIndex[s.config.anchorHeader.blockId]?

theorem Evolves.refl (s : ChainState) : Evolves s s.db.blockIndex :=
  ⟨fun _ r h => ⟨r, h, .refl r⟩, fun _ r h => ⟨r, Or.inl h, .refl r⟩, rfl⟩

theorem Evolves.of_changes {s : ChainState} {l : List (Hash256 × BlockIndexRecord)}
    (h : ∀ e ∈ l, e.1 ≠ s.config.anchorHeader.blockId ∧ ∃ r, Source s e.1 r ∧ SameShape r e.2) :
    Evolves s (applyChanges (l.map fun e => (e.1, some e.2)) s.db.blockIndex) := by
  have hcases : ∀ id : Hash256, (applyChanges (l.map fun e => (e.1, some e.2))
      s.db.blockIndex)[id]? = s.db.blockIndex[id]? ∨
      ∃ e ∈ l, e.1 = id ∧
        (applyChanges (l.map fun e => (e.1, some e.2)) s.db.blockIndex)[id]? = some e.2 := by
    intro id
    rcases lookup_applyChanges_cases (l.map fun e => (e.1, some e.2)) s.db.blockIndex id with
      ⟨-, heq⟩ | ⟨c, hc, heq⟩
    · exact Or.inl heq
    · grind
  refine ⟨fun id r hr => ?_, fun id r' hr' => ?_, ?_⟩
  · rcases hcases id with heq | ⟨e, he, rfl, heq⟩
    · exact ⟨r, heq.trans hr, .refl r⟩
    · obtain ⟨r₀, hsource | ⟨hfresh, hid⟩, hshape⟩ := (h e he).2
      · obtain rfl : r = r₀ := Option.some.inj (hr.symm.trans hsource)
        exact ⟨e.2, heq, hshape⟩
      · rw [← hid] at hr
        cases hr.symm.trans hfresh.unknown
  · rcases hcases id with heq | ⟨e, he, rfl, heq⟩
    · exact ⟨r', Or.inl (heq.symm.trans hr'), .refl r'⟩
    · grind
  · grind

theorem IndexOk.evolves {s : ChainState} {index' : Std.ExtTreeMap Hash256 BlockIndexRecord}
    (hok : IndexOk s.config s.db.blockIndex) (h : Evolves s index') : IndexOk s.config index' where
  ident id r' hr' := by
    obtain ⟨r, hr | ⟨hfresh, rfl⟩, hshape⟩ := h.source id r' hr'
    · rw [hshape.1, hshape.2.1]
      exact hok.ident id r hr
    · rw [hshape.1, hshape.2.1]
      exact ⟨rfl, hfresh.parent_eq⟩
  anchor := h.anchor.trans hok.anchor
  linked id r' hr' := by
    have hlift : ∀ r p, s.db.blockIndex[r.parent]? = some p → ChildOf s.config.params p r →
        SameShape r r' → ∃ p', index'[r'.parent]? = some p' ∧ ChildOf s.config.params p' r' := by
      intro r p hp hchild hshape
      obtain ⟨p', hp', hpshape⟩ := h.known _ p hp
      exact ⟨p', hshape.2.1 ▸ hp', hchild.shape hpshape hshape⟩
    obtain ⟨r, hr | ⟨hfresh, -⟩, hshape⟩ := h.source id r' hr'
    · rcases hok.linked id r hr with hanchor | ⟨p, hp, hchild⟩
      · exact Or.inl hanchor
      · exact Or.inr (hlift r p hp hchild hshape)
    · obtain ⟨p, hp, -, hchild⟩ := hfresh.link
      exact Or.inr (hlift r p hp hchild hshape)

/-- The active mapping is one path of fully validated records, from the anchor to the tip. -/
structure ActiveOk (s : ChainState) : Prop where
  bottom : s.db.activeIdAtHeight 0 = some s.config.anchorHeader.blockId
  top : s.db.activeIdAtHeight s.tip.height = some s.tip.blockId
  above : ∀ h, s.tip.height < h → s.db.activeIdAtHeight h = none
  record : ∀ h id, s.db.activeIdAtHeight h = some id → ∃ r, s.db.getIndex id = some r ∧
    r.height = h ∧ r.validation = .fullyValidated ∧
    ∀ k, h = k + 1 → s.db.activeIdAtHeight k = some r.parent
  tipRecord : ∃ r, s.db.getIndex s.tip.blockId = some r ∧ r.tip = s.tip

structure Consistent (s : ChainState) : Prop where
  index : IndexOk s.config s.db.blockIndex
  active : ActiveOk s
  headerTip : ∃ r, s.db.getIndex s.headerTip.blockId = some r ∧ r.tip = s.headerTip
  storedTip : s.db.activeTip = some (s.tip.blockId, s.tip.height)
  storedHeaderTip : s.db.preferredHeaderTip = some (s.headerTip.blockId, s.headerTip.height)
  storedConfig : s.db.configAnchorId = some s.config.anchorHeader.blockId ∧
    s.db.configGenesisTimestamp = some s.config.genesisTimestamp
  storedHealth : s.sessionHealth = .healthy → s.db.health = some .healthy
  bodies : ∀ id r, s.db.getIndex id = some r → r.bodyRetained = true →
    ∃ block, s.db.blocks[id]? = some block ∧ block.header = r.header

section Candidates

variable {s : ChainState} {block : Block} {index : BlockIndexRecord}

/-- A record that is not fully validated is that of no active block. -/
theorem ActiveOk.not_active (h : ActiveOk s) {id : Hash256}
    (hid : ∀ r, s.db.getIndex id = some r → r.validation ≠ .fullyValidated) (height : ℕ) :
    s.db.activeIdAtHeight height ≠ some id := by
  intro hactive
  obtain ⟨r, hr, -, hfull, -⟩ := h.record height id hactive
  exact hid r hr hfull

theorem ActiveOk.height_le (h : ActiveOk s) {height : ℕ} {id : Hash256}
    (hid : s.db.activeIdAtHeight height = some id) : height ≤ s.tip.height := by
  by_contra hgt
  rw [h.above height (Nat.lt_of_not_le hgt)] at hid
  cases hid

theorem Candidate.source_eq (hc : Candidate s block index) : Source s block.header.blockId index := by
  rcases hc.source with hknown | hfresh
  · exact Or.inl hknown
  · exact Or.inr ⟨hfresh, by rw [hc.header]⟩

theorem Candidate.not_full (hc : Candidate s block index) :
    ∀ r, s.db.getIndex block.header.blockId = some r → r.validation ≠ .fullyValidated := by
  intro r hr
  rcases hc.source_eq with hknown | ⟨hfresh, hid⟩
  · obtain rfl : index = r := Option.some.inj (hknown.symm.trans hr)
    rw [hc.status]
    decide
  · rw [← hid] at hr
    cases hr.symm.trans hfresh.unknown

theorem Candidate.not_active (h : ActiveOk s) (hc : Candidate s block index) (height : ℕ) :
    s.db.activeIdAtHeight height ≠ some block.header.blockId := h.not_active hc.not_full height

theorem Candidate.ne_anchor (h : ActiveOk s) (hc : Candidate s block index) :
    block.header.blockId ≠ s.config.anchorHeader.blockId := fun heq =>
  hc.not_active h 0 (heq ▸ h.bottom)

theorem Candidate.link (h : ActiveOk s) (hok : IndexOk s.config s.db.blockIndex)
    (hc : Candidate s block index) :
    ∃ p, s.db.getIndex index.parent = some p ∧ ChildOf s.config.params p index := by
  rcases hc.source with hknown | hfresh
  · rcases hok.linked _ _ hknown with hanchor | hlink
    · exact absurd hanchor (hc.ne_anchor h)
    · exact hlink
  · obtain ⟨p, hp, -, hchild⟩ := hfresh.link
    exact ⟨p, hp, hchild⟩

variable {forkHeight : ℕ} {path : List ReorgCandidate}

theorem PathOk.source_eq (hc : Candidate s block index) (hp : PathOk s block index forkHeight path) :
    ∀ c ∈ path, ∃ r, Source s c.id r ∧ SameShape r c.index := by
  obtain ⟨below, rfl, hbelow⟩ := hp.last
  intro c hmem
  rcases List.mem_append.mp hmem with hmem | hmem
  · exact ⟨c.index, Or.inl (hbelow c hmem).1, .refl _⟩
  · rw [List.mem_singleton.mp hmem]
    exact ⟨index, hc.source_eq, rfl, rfl, rfl, rfl⟩

theorem PathOk.not_active (h : ActiveOk s) (hc : Candidate s block index)
    (hp : PathOk s block index forkHeight path) :
    ∀ c ∈ path, ∀ height, s.db.activeIdAtHeight height ≠ some c.id := by
  obtain ⟨_, _, -, -, -, hbranch⟩ := hp.fork
  have hside := hbranch.side_valid
  obtain ⟨below, rfl, hbelow⟩ := hp.last
  intro c hmem height hactive
  rcases List.mem_append.mp hmem with hlow | htop
  · obtain ⟨r, hr, rfl, -, -⟩ := h.record height c.id hactive
    obtain rfl : r = c.index := Option.some.inj (hr.symm.trans (hbelow c hlow).1)
    exact (hside c.node (List.mem_map_of_mem hmem)).1 hactive
  · rw [List.mem_singleton.mp htop] at hactive
    exact hc.not_active h height hactive

theorem PathOk.pairwise_height (hp : PathOk s block index forkHeight path) :
    path.Pairwise fun a b => a.index.height < b.index.height := by
  obtain ⟨_, _, -, -, -, hbranch⟩ := hp.fork
  have hpair := hbranch.pairwise_height
  rwa [List.pairwise_map] at hpair

theorem PathOk.fork_lt (hp : PathOk s block index forkHeight path) :
    ∀ c ∈ path, forkHeight < c.index.height := by
  obtain ⟨_, _, -, rfl, -, hbranch⟩ := hp.fork
  exact fun c hc => hbranch.height_lt c.node (List.mem_map_of_mem hc)

theorem PathOk.height_le (hp : PathOk s block index forkHeight path) :
    ∀ c ∈ path, c.index.height ≤ index.height := by
  have hpair := hp.pairwise_height
  obtain ⟨below, rfl, -⟩ := hp.last
  intro c hc
  rcases List.mem_append.mp hc with hc | hc
  · exact ((List.pairwise_append.mp hpair).2.2 c hc _ (List.mem_singleton.mpr rfl)).le
  · rw [List.mem_singleton.mp hc]
    exact le_rfl

theorem PathOk.work_le (hp : PathOk s block index forkHeight path) :
    ∀ c ∈ path, c.index.cumulativeWork ≤ index.cumulativeWork := by
  obtain ⟨_, _, -, -, -, hbranch⟩ := hp.fork
  have hpair := List.pairwise_map.mp hbranch.pairwise_work.2
  obtain ⟨below, rfl, -⟩ := hp.last
  intro c hc
  rcases List.mem_append.mp hc with hc | hc
  · exact ((List.pairwise_append.mp hpair).2.2 c hc _ (List.mem_singleton.mpr rfl)).le
  · rw [List.mem_singleton.mp hc]
    exact le_rfl

/-- The nodes of a path below the delivered block are ancestors of it. -/
theorem PathOk.ancestor (hc : Candidate s block index) (hp : PathOk s block index forkHeight path) :
    ∀ c ∈ path, c.id = block.header.blockId ∨
      Ancestor s.db.blockIndex c.id block.header.previousBlock := by
  obtain ⟨_, _, -, -, -, hbranch⟩ := hp.fork
  obtain ⟨below, rfl, hbelow⟩ := hp.last
  rw [List.map_append, List.map_singleton] at hbranch
  have hall := (hbranch.ancestor fun node hnode => by
    obtain ⟨c, hc, rfl⟩ := List.mem_map.mp hnode
    exact (hbelow c hc).1).2
  intro c hmem
  rcases List.mem_append.mp hmem with hmem | hmem
  · refine Or.inr ?_
    rw [← hc.parent_eq]
    exact hall c.node (List.mem_map_of_mem hmem)
  · simp_all

theorem PathOk.parent_cases (hp : PathOk s block index forkHeight path) :
    ∀ c ∈ path, c.index.height = forkHeight + 1 ∧
        s.db.activeIdAtHeight forkHeight = some c.index.parent ∨
      ∃ prev ∈ path, c.index.parent = prev.id ∧ c.index.height = prev.index.height + 1 := by
  obtain ⟨forkId, forkRecord, -, rfl, hactive, hbranch⟩ := hp.fork
  intro c hc
  rcases hbranch.parent_cases c.node (List.mem_map_of_mem hc) with ⟨hparent, hheight⟩ |
    ⟨node, hnode, hparent, hheight⟩
  · exact Or.inl ⟨hheight, hparent ▸ hactive⟩
  · obtain ⟨prev, hprev, rfl⟩ := List.mem_map.mp hnode
    exact Or.inr ⟨prev, hprev, hparent, hheight⟩

theorem PathOk.nodup_ids (hc : Candidate s block index) (hp : PathOk s block index forkHeight path) :
    (path.map ReorgCandidate.id).Nodup := by
  refine List.pairwise_map.mpr (List.Pairwise.imp_of_mem ?_ hp.pairwise_height)
  obtain ⟨below, rfl, hbelow⟩ := hp.last
  -- a record is filed under one id, and the delivered block has no record above it
  have hlast : ∀ c ∈ below, c.index.height < index.height → c.id ≠ block.header.blockId := by
    intro c hmem hlt heq
    have hrecord := (hbelow c hmem).1
    rw [heq] at hrecord
    rcases hc.source_eq with hknown | ⟨hfresh, hid⟩
    · simp_all
    · rw [← hid] at hrecord
      cases hrecord.symm.trans hfresh.unknown
  intro a b ha hb hlt heq
  rcases List.mem_append.mp ha with ha | ha <;> rcases List.mem_append.mp hb with hb | hb
  · grind
  · rw [List.mem_singleton.mp hb] at hlt heq
    exact hlast a ha hlt heq
  · rw [List.mem_singleton.mp ha] at hlt
    exact absurd hlt (Nat.not_lt.mpr (hp.height_le b (List.mem_append_left _ hb)))
  · simp_all

theorem PathOk.top_mem (hp : PathOk s block index forkHeight path) :
    (⟨block.header.blockId, index.withBody, block⟩ : ReorgCandidate) ∈ path := by
  obtain ⟨below, rfl, -⟩ := hp.last
  simp

theorem PathOk.height_get (hp : PathOk s block index forkHeight path) {i : ℕ}
    {c : ReorgCandidate} (hi : path[i]? = some c) : c.index.height = forkHeight + 1 + i := by
  obtain ⟨_, _, -, rfl, -, hbranch⟩ := hp.fork
  have hnode : (path.map ReorgCandidate.node)[i]? = some c.node := by
    rw [List.getElem?_map, hi]
    rfl
  exact hbranch.height_get hnode

theorem PathOk.length_eq (hp : PathOk s block index forkHeight path) :
    forkHeight + path.length = index.height := by
  obtain ⟨below, rfl, -⟩ := hp.last
  have h := hp.height_get (i := below.length) (by simp; rfl)
  change index.height = _ at h
  grind

/-- What is written for the nodes of a path is found under their ids. -/
theorem PathOk.lookup_node {V : Type} (hc : Candidate s block index)
    (hp : PathOk s block index forkHeight path) (f : ReorgCandidate → V)
    (m : Std.ExtTreeMap Hash256 V) {c : ReorgCandidate} (hmem : c ∈ path) :
    (applyChanges (path.map fun c => (c.id, some (f c))) m)[c.id]? = some (f c) := by
  refine lookup_applyChanges_of_mem ?_ (List.mem_map.mpr ⟨c, hmem, rfl⟩)
  rw [List.map_map]
  exact hp.nodup_ids hc

/-- Undo records written for the nodes of a path are found under their ids. -/
theorem lookup_pathUndos {undos : List BlockUndo} (hc : Candidate s block index)
    (hp : PathOk s block index forkHeight path) (hlen : undos.length = path.length) {j : ℕ} {c : ReorgCandidate} (hj : path[j]? = some c) :
    ∃ undo, undos[j]? = some undo ∧
      (applyChanges ((path.zip undos).map fun p => (p.1.id, some p.2)) s.db.undo)[c.id]? =
        some undo := by
  obtain ⟨hlt, -⟩ := List.getElem?_eq_some_iff.mp hj
  obtain ⟨undo, hundo⟩ : ∃ undo, undos[j]? = some undo := by simp_all
  refine ⟨undo, hundo, lookup_applyChanges_of_mem ?_ ?_⟩
  · have hids : ((path.zip undos).map fun p => (p.1.id, some p.2)).map Prod.fst =
        path.map ReorgCandidate.id := by
      have hfst : (path.zip undos).map Prod.fst = path := List.map_fst_zip (by omega)
      rw [List.map_map]
      conv_rhs => rw [← hfst, List.map_map]
      rfl
    rw [hids]
    exact hp.nodup_ids hc
  · refine List.mem_map.mpr ⟨(c, _), List.mem_iff_getElem?.mpr ⟨j, ?_⟩, rfl⟩
    simp_all

end Candidates

section Steps

variable {s : ChainState} {block : Block} {index : BlockIndexRecord}

/-- The active chain stays when the mapping and the tip do and active records keep
their shape and their status. -/
theorem ActiveOk.frame {s' : ChainState} (h : ActiveOk s) (hconfig : s'.config = s.config)
    (htip : s'.tip = s.tip) (hmap : s'.db.activeHeight = s.db.activeHeight)
    (hrecord : ∀ height id r, s.db.activeIdAtHeight height = some id → s.db.getIndex id = some r →
      ∃ r', s'.db.getIndex id = some r' ∧ SameShape r r' ∧ r'.validation = r.validation) :
    ActiveOk s' := by
  have hactive : ∀ height, s'.db.activeIdAtHeight height = s.db.activeIdAtHeight height := fun _ => by
    rw [OregonDb.activeIdAtHeight, hmap, OregonDb.activeIdAtHeight]
  refine ⟨?_, ?_, fun height hlt => ?_, fun height id hid => ?_, ?_⟩
  · rw [hactive, hconfig]
    exact h.bottom
  · rw [hactive, htip]
    exact h.top
  · rw [hactive]
    exact h.above height (htip ▸ hlt)
  · rw [hactive] at hid
    obtain ⟨r, hr, hheight, hfull, hparent⟩ := h.record height id hid
    obtain ⟨r', hr', hshape, hstatus⟩ := hrecord height id r hid hr
    refine ⟨r', hr', hshape.2.2.1.trans hheight, hstatus.trans hfull, fun k hk => ?_⟩
    rw [hactive, hshape.2.1]
    exact hparent k hk
  · obtain ⟨r, hr, htipEq⟩ := h.tipRecord
    obtain ⟨r', hr', hshape, -⟩ := hrecord _ _ r h.top hr
    refine ⟨r', htip ▸ hr', ?_⟩
    rw [htip, ← htipEq, BlockIndexRecord.tip, BlockIndexRecord.tip, hshape.1, hshape.2.2.1,
      hshape.2.2.2]

/-- A tip whose record keeps its shape is still described by it. -/
theorem Evolves.tip {index' : Std.ExtTreeMap Hash256 BlockIndexRecord} (h : Evolves s index')
    {tip : Tip} (htip : ∃ r, s.db.getIndex tip.blockId = some r ∧ r.tip = tip) :
    ∃ r : BlockIndexRecord, index'[tip.blockId]? = some r ∧ r.tip = tip := by
  obtain ⟨r, hr, heq⟩ := htip
  obtain ⟨r', hr', hshape⟩ := h.known _ r hr
  refine ⟨r', hr', ?_⟩
  rw [← heq, BlockIndexRecord.tip, BlockIndexRecord.tip, hshape.1, hshape.2.2.1, hshape.2.2.2]

omit [Crypto] in
/-- The preferred header tip after it may have moved to `tip`. -/
theorem prefer_headerTip_cases (s : ChainState) (tip : Tip) :
    ((s.prefer tip).headerTip = s.headerTip ∧ tip.cumulativeWork ≤ s.headerTip.cumulativeWork ∧
      (s.prefer tip).db.preferredHeaderTip = s.db.preferredHeaderTip) ∨
    ((s.prefer tip).headerTip = tip ∧ s.headerTip.cumulativeWork < tip.cumulativeWork ∧
      (s.prefer tip).db.preferredHeaderTip = some (tip.blockId, tip.height)) := by
  unfold ChainState.prefer
  grind

theorem Consistent.prefer (h : Consistent s) {tip : Tip}
    (htip : ∃ r, s.db.getIndex tip.blockId = some r ∧ r.tip = tip) : Consistent (s.prefer tip) := by
  unfold ChainState.prefer
  split
  · exact ⟨h.index, ⟨h.active.bottom, h.active.top, h.active.above, h.active.record,
      h.active.tipRecord⟩, htip, h.storedTip, rfl, h.storedConfig, h.storedHealth, h.bodies⟩
  · exact h

section Lookups

theorem storeHeader_getIndex (s : ChainState) (index : BlockIndexRecord) (id : Hash256) :
    (s.storeHeader index).db.getIndex id =
      if index.header.blockId = id then some index else s.db.getIndex id := by
  simp only [OregonDb.getIndex, ChainState.storeHeader, ChainState.prefer_blockIndex, lookup_insert]

theorem storeSide_getIndex (s : ChainState) (block : Block) (index : BlockIndexRecord)
    (id : Hash256) : (s.storeSide block index).db.getIndex id =
      if block.header.blockId = id then some index.withBody else s.db.getIndex id := by
  simp only [OregonDb.getIndex, ChainState.storeSide, lookup_insert]

theorem Fresh.ne_known (hfresh : Fresh s index) {id : Hash256} {r : BlockIndexRecord}
    (hr : s.db.getIndex id = some r) : index.header.blockId ≠ id := by
  rintro rfl
  cases hr.symm.trans hfresh.unknown

end Lookups

section Evolution

theorem Fresh.evolves (h : Consistent s) (hfresh : Fresh s index) :
    Evolves s (s.db.blockIndex.insert index.header.blockId index) := by
  refine Evolves.of_changes (l := [(index.header.blockId, index)]) ?_
  intro e he
  rw [List.mem_singleton.mp he]
  exact ⟨hfresh.ne_known h.index.anchor, index, Or.inr ⟨hfresh, rfl⟩, .refl _⟩

theorem Candidate.evolves (h : Consistent s) (hc : Candidate s block index) :
    Evolves s (s.db.blockIndex.insert block.header.blockId index.withBody) := by
  refine Evolves.of_changes (l := [(block.header.blockId, index.withBody)]) ?_
  intro e he
  rw [List.mem_singleton.mp he]
  exact ⟨hc.ne_anchor h.active, index, hc.source_eq, rfl, rfl, rfl, rfl⟩

/-- New records for nodes of a path, in the shape of the old ones. -/
theorem PathOk.evolves {forkHeight : ℕ} {path nodes : List ReorgCandidate}
    {f : ReorgCandidate → BlockIndexRecord} (h : Consistent s) (hc : Candidate s block index)
    (hp : PathOk s block index forkHeight path) (hsub : ∀ c ∈ nodes, c ∈ path)
    (hf : ∀ c, SameShape c.index (f c)) :
    Evolves s (applyChanges (nodes.map fun c => (c.id, some (f c))) s.db.blockIndex) := by
  have hmap : (nodes.map fun c => (c.id, some (f c))) =
      (nodes.map fun c => (c.id, f c)).map fun e => (e.1, some e.2) := by
    rw [List.map_map]
    rfl
  rw [hmap]
  refine Evolves.of_changes fun e he => ?_
  obtain ⟨c, hmem, rfl⟩ := List.mem_map.mp he
  obtain ⟨r, hr, hshape⟩ := hp.source_eq hc c (hsub c hmem)
  refine ⟨fun heq => hp.not_active h.active hc c (hsub c hmem) 0 ?_, r, hr, hshape.trans (hf c)⟩
  rw [h.active.bottom, ← heq]

theorem Pruned.evolves {db' : OregonDb} (h : Consistent s)
    (hp : Pruned s.db s.tip.height db') : Evolves s db'.blockIndex := by
  refine ⟨fun id r hr => ⟨_, hp.of_getIndex hr, rfl, rfl, rfl, rfl⟩, fun id r' hr' => ?_, ?_⟩
  · obtain ⟨r, hr, rfl⟩ := hp.getIndex_some hr'
    exact ⟨r, Or.inl hr, rfl, rfl, rfl, rfl⟩
  · rw [hp.index, h.index.anchor]
    rfl

end Evolution

/-- What a call has to keep when it leaves the tips and the active mapping alone. -/
theorem Consistent.frame {s' : ChainState} (h : Consistent s)
    (hframe : s' = { s with db := { s.db with
      blocks := s'.db.blocks, blockIndex := s'.db.blockIndex, undo := s'.db.undo
      pruneCursor := s'.db.pruneCursor } })
    (hevolves : Evolves s s'.db.blockIndex)
    (hstatus : ∀ height id r r', s.db.activeIdAtHeight height = some id →
      s.db.getIndex id = some r → s'.db.getIndex id = some r' → r'.validation = r.validation)
    (hbodies : ∀ id r, s'.db.getIndex id = some r → r.bodyRetained = true →
      ∃ block, s'.db.blocks[id]? = some block ∧ block.header = r.header) : Consistent s' := by
  have hactive : ActiveOk s' := by
    refine h.active.frame (by rw [hframe]) (by rw [hframe]) (by rw [hframe]) ?_
    intro height id r hid hr
    obtain ⟨r', hr', hshape⟩ := hevolves.known id r hr
    exact ⟨r', hr', hshape, hstatus height id r r' hid hr hr'⟩
  have hindex := h.index.evolves hevolves
  have hheader := hevolves.tip h.headerTip
  rw [hframe] at hactive hindex hbodies ⊢
  exact ⟨hindex, hactive, hheader, h.storedTip, h.storedHeaderTip, h.storedConfig, h.storedHealth,
    hbodies⟩

theorem Consistent.storeHeader (h : Consistent s) (hfresh : Fresh s index) :
    Consistent (s.storeHeader index) := by
  refine Consistent.prefer (h.frame rfl (hfresh.evolves h) ?_ ?_) ⟨index, ?_, rfl⟩
  · intro height id r r' _ hr hr'
    rw [OregonDb.getIndex, lookup_insert, if_neg (hfresh.ne_known hr)] at hr'
    rw [Option.some.inj (hr'.symm.trans hr)]
  · intro id r hr hbody
    rw [OregonDb.getIndex, lookup_insert] at hr
    split_ifs at hr with heq
    · obtain rfl := Option.some.inj hr
      rw [hfresh.body] at hbody
      cases hbody
    · exact h.bodies id r hr hbody
  · simp [OregonDb.getIndex, BlockIndexRecord.tip]

theorem Consistent.storeSide (h : Consistent s) (hc : Candidate s block index) :
    Consistent (s.storeSide block index) := by
  refine h.frame rfl (hc.evolves h) ?_ ?_
  · intro height id r r' hactive hr hr'
    have hne : block.header.blockId ≠ id := fun heq => hc.not_active h.active height (heq ▸ hactive)
    rw [storeSide_getIndex, if_neg hne] at hr'
    rw [Option.some.inj (hr'.symm.trans hr)]
  · intro id r hr hbody
    rw [storeSide_getIndex] at hr
    rw [ChainState.storeSide, lookup_insert]
    split_ifs at hr ⊢ with heq
    · obtain rfl := Option.some.inj hr
      exact ⟨block, rfl, hc.header.symm⟩
    · exact h.bodies id r hr hbody

omit [Crypto] in
/-- A record found after new records were written for nodes of a path. -/
theorem lookup_pathRecords {path : List ReorgCandidate} {f : ReorgCandidate → BlockIndexRecord}
    {id : Hash256} {r : BlockIndexRecord}
    (h : (applyChanges (path.map fun c => (c.id, some (f c))) s.db.blockIndex)[id]? = some r) :
    (id ∉ path.map ReorgCandidate.id ∧ s.db.getIndex id = some r) ∨
      ∃ c ∈ path, c.id = id ∧ r = f c := by
  rcases lookup_applyChanges_cases (path.map fun c => (c.id, some (f c))) s.db.blockIndex id with
    ⟨hnot, heq⟩ | ⟨_, hmem, heq⟩
  · refine Or.inl ⟨?_, heq.symm.trans h⟩
    rwa [List.map_map] at hnot
  · grind

theorem Consistent.markPath {forkHeight : ℕ} {path suffix : List ReorgCandidate}
    (h : Consistent s) (hc : Candidate s block index) (hp : PathOk s block index forkHeight path)
    (hsub : ∀ c ∈ suffix, c ∈ path) : Consistent (s.markPath block.header.blockId suffix) := by
  refine h.frame rfl (hp.evolves h hc hsub fun _ => ⟨rfl, rfl, rfl, rfl⟩) ?_ ?_
  · intro height id r r' hactive hr hr'
    rcases lookup_pathRecords hr' with ⟨-, hold⟩ | ⟨c, hmem, rfl, -⟩
    · rw [Option.some.inj (hold.symm.trans hr)]
    · exact absurd hactive (hp.not_active h.active hc c (hsub c hmem) height)
  · intro id r hr hbody
    rcases lookup_pathRecords hr with ⟨-, hold⟩ | ⟨c, hmem, rfl, rfl⟩
    · exact h.bodies id r hold hbody
    · -- the delivered block is marked without its body, the others have theirs
      obtain ⟨below, rfl, hbelow⟩ := hp.last
      have hpath := hsub c hmem
      rcases List.mem_append.mp hpath with hlow | htop
      · exact ⟨c.block, (hbelow c hlow).2.2, (hp.headers c hpath).1⟩
      · grind [ReorgCandidate.marked]

theorem Consistent.pruned {db' : OregonDb} (h : Consistent s)
    (hp : Pruned s.db s.tip.height db') : Consistent { s with db := db' } := by
  refine h.frame (by rw [hp.frame]) (hp.evolves h) ?_ ?_
  · intro height id r r' _ hr hr'
    obtain ⟨r₀, hr₀, rfl⟩ := hp.getIndex_some hr'
    rw [Option.some.inj (hr.symm.trans hr₀)]
  · intro id r' hr' hbody
    obtain ⟨r, hr, rfl⟩ := hp.getIndex_some hr'
    rw [Bool.and_eq_true] at hbody
    obtain ⟨b, hb, hheader⟩ := h.bodies id r hr hbody.1
    refine ⟨b, ?_, hheader⟩
    change s.db.blockIndex[id]? = some r at hr
    rw [hp.blocks, hr]
    simp [hbody.2, hb]

section Adopt

variable {forkHeight : ℕ} {path : List ReorgCandidate}

/-- The active mapping with the heights above the fork replaced by those of a path. -/
def adoptedHeights (s : ChainState) (forkHeight : ℕ) (path : List ReorgCandidate) :
    Std.ExtTreeMap ℕ Hash256 :=
  applyChanges ((List.range' (forkHeight + 1) (s.tip.height - forkHeight)).map (fun h => (h, none)) ++
    path.map fun c => (c.index.height, some c.id)) s.db.activeHeight

omit [Crypto] in
theorem adoptedHeights_keys (path : List ReorgCandidate) :
    (path.map fun c => (c.index.height, some c.id)).map Prod.fst =
      path.map fun c => c.index.height := by
  rw [List.map_map]
  rfl

theorem lookup_adoptedHeights_node (hp : PathOk s block index forkHeight path)
    {c : ReorgCandidate} (hc : c ∈ path) :
    (adoptedHeights s forkHeight path)[c.index.height]? = some c.id := by
  unfold adoptedHeights
  rw [applyChanges_append]
  refine lookup_applyChanges_of_mem ?_ (List.mem_map.mpr ⟨c, hc, rfl⟩)
  rw [adoptedHeights_keys]
  exact List.pairwise_map.mpr (hp.pairwise_height.imp fun hlt => Nat.ne_of_lt hlt)

omit [Crypto] in
theorem lookup_adoptedHeights_other {height : ℕ} (hnone : ∀ c ∈ path, c.index.height ≠ height) :
    (adoptedHeights s forkHeight path)[height]? =
      if forkHeight < height ∧ height ≤ s.tip.height then none
      else s.db.activeIdAtHeight height := by
  unfold adoptedHeights
  rw [applyChanges_append, lookup_applyChanges_of_notMem
    (by rw [adoptedHeights_keys]; simpa using hnone)]
  rcases lookup_applyChanges_cases ((List.range' (forkHeight + 1) (s.tip.height - forkHeight)).map
    fun h => (h, none)) s.db.activeHeight height with ⟨hnot, heq⟩ | ⟨c, hc, heq⟩
  · rw [heq, if_neg]
    · rfl
    · grind
  · grind

theorem lookup_adoptedHeights_le (hp : PathOk s block index forkHeight path) {height : ℕ}
    (hle : height ≤ forkHeight) :
    (adoptedHeights s forkHeight path)[height]? = s.db.activeIdAtHeight height := by
  rw [lookup_adoptedHeights_other fun c hc => by have := hp.fork_lt c hc; omega, if_neg (by omega)]

/-- An active block after a path was adopted: a node of it, or one at or below the fork. -/
theorem adoptedHeights_cases (h : ActiveOk s) (hp : PathOk s block index forkHeight path)
    {height : ℕ} {id : Hash256} (hid : (adoptedHeights s forkHeight path)[height]? = some id) :
    (∃ c ∈ path, c.index.height = height ∧ c.id = id) ∨
      height ≤ forkHeight ∧ s.db.activeIdAtHeight height = some id := by
  by_cases hmem : ∃ c ∈ path, c.index.height = height
  · obtain ⟨c, hc, rfl⟩ := hmem
    rw [lookup_adoptedHeights_node hp hc] at hid
    exact Or.inl ⟨c, hc, rfl, Option.some.inj hid⟩
  · rw [lookup_adoptedHeights_other fun c hc heq => hmem ⟨c, hc, heq⟩] at hid
    split_ifs at hid with hin
    refine Or.inr ⟨?_, hid⟩
    by_contra hgt
    rw [h.above height (by omega)] at hid
    cases hid

section Fields

variable (undos : List BlockUndo) (staged : UtxoState) (delta : UtxoDelta) (tip : Tip)

omit [Crypto] in
theorem reorgTo_activeIdAtHeight (height : ℕ) :
    (s.reorgTo forkHeight path undos staged delta tip).db.activeIdAtHeight height =
      (adoptedHeights s forkHeight path)[height]? := by
  simp only [OregonDb.activeIdAtHeight, ChainState.reorgTo, ChainState.prefer_activeHeight]
  rfl

omit [Crypto] in
theorem reorgTo_getIndex (id : Hash256) :
    (s.reorgTo forkHeight path undos staged delta tip).db.getIndex id =
      (applyChanges (path.map fun c => (c.id, some c.index.validated)) s.db.blockIndex)[id]? := by
  simp only [OregonDb.getIndex, ChainState.reorgTo, ChainState.prefer_blockIndex]

omit [Crypto] in
@[simp] theorem reorgTo_config :
    (s.reorgTo forkHeight path undos staged delta tip).config = s.config := by
  simp only [ChainState.reorgTo, ChainState.prefer_config]

omit [Crypto] in
@[simp] theorem reorgTo_tip :
    (s.reorgTo forkHeight path undos staged delta tip).tip = tip := by
  simp only [ChainState.reorgTo, ChainState.prefer_tip]

end Fields

theorem ActiveOk.reorgTo (h : Consistent s) {undos : List BlockUndo} {staged : UtxoState}
    {delta : UtxoDelta} (hc : Candidate s block index)
    (hp : PathOk s block index forkHeight path) :
    ActiveOk (s.reorgTo forkHeight path undos staged delta index.tip) := by
  have hmem := hp.top_mem
  refine ⟨?_, ?_, fun height hlt => ?_, fun height id hid => ?_, ?_⟩
  · rw [reorgTo_activeIdAtHeight, lookup_adoptedHeights_le hp (Nat.zero_le _), reorgTo_config]
    exact h.active.bottom
  · rw [reorgTo_activeIdAtHeight, reorgTo_tip, hc.tip_eq]
    exact lookup_adoptedHeights_node hp hmem
  · rw [reorgTo_tip] at hlt
    rw [reorgTo_activeIdAtHeight]
    by_contra hsome
    obtain ⟨id, hid⟩ := Option.ne_none_iff_exists'.mp hsome
    rcases adoptedHeights_cases h.active hp hid with ⟨c, hmem, rfl, -⟩ | ⟨hle, -⟩
    · exact absurd (hp.height_le c hmem) (Nat.not_le.mpr hlt)
    · have hfork := hp.fork_lt _ hmem
      change index.height < height at hlt
      change forkHeight < index.height at hfork
      omega
  · rw [reorgTo_activeIdAtHeight] at hid
    rcases adoptedHeights_cases h.active hp hid with ⟨c, hmem, rfl, rfl⟩ | ⟨hle, hold⟩
    · refine ⟨c.index.validated, ?_, rfl, rfl, fun k hk => ?_⟩
      · rw [reorgTo_getIndex]
        exact hp.lookup_node hc (fun c => c.index.validated) _ hmem
      rw [reorgTo_activeIdAtHeight]
      rcases hp.parent_cases c hmem with ⟨hheight, hfork⟩ | ⟨prev, hprev, hparent, hheight⟩
      · obtain rfl : k = forkHeight := by omega
        rw [lookup_adoptedHeights_le hp le_rfl]
        exact hfork
      · obtain rfl : k = prev.index.height := by omega
        rw [lookup_adoptedHeights_node hp hprev]
        exact congrArg some hparent.symm
    · obtain ⟨r, hr, hheight, hfull, hparent⟩ := h.active.record height id hold
      refine ⟨r, ?_, hheight, hfull, fun k hk => ?_⟩
      · rw [reorgTo_getIndex, lookup_applyChanges_of_notMem]
        · exact hr
        · rw [List.map_map]
          intro hin
          obtain ⟨c, hmem, rfl⟩ := List.mem_map.mp hin
          exact hp.not_active h.active hc c hmem height hold
      · rw [reorgTo_activeIdAtHeight, lookup_adoptedHeights_le hp (by omega)]
        exact hparent k hk
  · rw [reorgTo_tip]
    refine ⟨index.withBody.validated, ?_, rfl⟩
    rw [reorgTo_getIndex, hc.tip_eq]
    exact hp.lookup_node hc (fun c => c.index.validated) _ hmem

theorem Consistent.reorgTo (h : Consistent s) {undos : List BlockUndo} {staged : UtxoState}
    {delta : UtxoDelta} (hc : Candidate s block index)
    (hp : PathOk s block index forkHeight path) :
    Consistent (s.reorgTo forkHeight path undos staged delta index.tip) := by
  have hactive : ActiveOk (s.reorgTo forkHeight path undos staged delta index.tip) :=
    ActiveOk.reorgTo h hc hp
  have hevolves := hp.evolves (f := fun c => c.index.validated) h hc (fun _ hmem => hmem)
    fun _ => ⟨rfl, rfl, rfl, rfl⟩
  have hbodies : ∀ (id : Hash256) (r : BlockIndexRecord), (applyChanges (path.map fun c =>
      (c.id, some c.index.validated)) s.db.blockIndex)[id]? = some r → r.bodyRetained = true →
      ∃ b : Block, (applyChanges (path.map fun c => (c.id, some c.block)) s.db.blocks)[id]? =
        some b ∧ b.header = r.header := by
    intro id r hr hbody
    rcases lookup_pathRecords hr with ⟨hnot, hold⟩ | ⟨c, hmem, rfl, rfl⟩
    · obtain ⟨b, hb, hheader⟩ := h.bodies id r hold hbody
      grind [lookup_applyChanges_of_notMem]
    · exact ⟨c.block, hp.lookup_node hc ReorgCandidate.block _ hmem, (hp.headers c hmem).1⟩
  have htip := hactive.tipRecord
  unfold ChainState.reorgTo at hactive htip ⊢
  rw [ChainState.prefer_tip, OregonDb.getIndex, ChainState.prefer_blockIndex] at htip
  have hindex := h.index.evolves hevolves
  have hheader := hevolves.tip h.headerTip
  refine Consistent.prefer ?_ htip
  refine ⟨hindex, ?_, hheader, rfl, h.storedHeaderTip, h.storedConfig, h.storedHealth, hbodies⟩
  exact hactive.frame (by simp) (by simp) (by simp) fun _ _ r _ hr =>
    ⟨r, by simpa [OregonDb.getIndex] using hr, .refl r, rfl⟩

end Adopt

end Steps

section Changes

variable {verifier : SpendVerifier} {s : ChainState} {block : Block} {index : BlockIndexRecord}

/-- The delivered block carries a heavier path, and the path connects. -/
structure Adopts (verifier : SpendVerifier) (s : ChainState) (block : Block)
    (index : BlockIndexRecord) (forkHeight : ℕ) (path : List ReorgCandidate)
    (undos : List BlockUndo) (staged : UtxoState) (delta : UtxoDelta) : Prop where
  candidate : Candidate s block index
  heavy : s.tip.cumulativeWork < index.cumulativeWork
  pathOk : PathOk s block index forkHeight path
  utxo : ∃ old base delta₀, loadOldActive s.db forkHeight (s.tip.height - forkHeight) = .ok old ∧
    disconnectActive s.utxos ∅ old = .ok (base, delta₀) ∧
    connectCandidates s.config.params verifier path base delta₀ = .ok (staged, delta, undos)

/-- The delivered block carries a heavier path, and the path fails at the first block
of `suffix`. -/
structure Rejects (verifier : SpendVerifier) (s : ChainState) (block : Block)
    (index : BlockIndexRecord) (forkHeight : ℕ) (path suffix : List ReorgCandidate) : Prop where
  candidate : Candidate s block index
  parent : index.parent ≠ s.tip.blockId
  heavy : s.tip.cumulativeWork < index.cumulativeWork
  pathOk : PathOk s block index forkHeight path
  utxo : ∃ old base delta₀ e, reorgPlan s block index = .ok ⟨forkHeight, old, path⟩ ∧
    disconnectActive s.utxos ∅ old = .ok (base, delta₀) ∧
    connectCandidates s.config.params verifier path base delta₀ = .error (.invalid suffix e)

theorem Rejects.mem_path {forkHeight : ℕ} {path suffix : List ReorgCandidate}
    (h : Rejects verifier s block index forkHeight path suffix) : ∀ c ∈ suffix, c ∈ path := by
  obtain ⟨_, _, _, _, -, -, hconnect⟩ := h.utxo
  obtain ⟨connected, rfl, -⟩ := connectCandidates_suffix hconnect
  exact fun c hc => List.mem_append_right _ hc

/-- A block on the tip is a path of one node. -/
theorem PathOk.of_extension (h : Consistent s) (hc : Candidate s block index)
    (hparent : index.parent = s.tip.blockId) :
    PathOk s block index s.tip.height [⟨block.header.blockId, index.withBody, block⟩] := by
  obtain ⟨r, hr, htip⟩ := h.active.tipRecord
  obtain ⟨r', hr', hheight, hfull, -⟩ := h.active.record _ _ h.active.top
  obtain rfl : r = r' := Option.some.inj (hr.symm.trans hr')
  obtain ⟨p, hp, hchild⟩ := hc.link h.active h.index
  rw [hparent] at hp
  obtain rfl : r = p := Option.some.inj (hr.symm.trans hp)
  obtain ⟨t, ht, -, hwork⟩ := hchild.work
  have hlink : Link s.tip.blockId r block.header.blockId index.withBody :=
    ⟨h.index.ident _ _ hr, ⟨congrArg BlockHeader.blockId hc.header, hc.header ▸ hc.parent_eq⟩,
      by simp [hfull], hparent, hchild.height, hchild.range, t, ht, hwork⟩
  refine ⟨⟨s.tip.blockId, r, hr, hheight, h.active.top, .cons hlink ?_ ?_ (.nil _ _)⟩, le_rfl,
    by simp, ?_, [], rfl, by simp⟩
  · exact hc.not_active h.active _
  · exact hc.status.trans_ne (by decide)
  · intro c hmem
    rw [List.mem_singleton.mp hmem]
    exact ⟨hc.header.symm, congrArg BlockHeader.blockId hc.header⟩

theorem extension_adopts (h : Consistent s) (hc : Candidate s block index)
    (hparent : index.parent = s.tip.blockId) {undo : BlockUndo} {staged : UtxoState}
    {delta : UtxoDelta}
    (hconnect : s.utxos.connectBlock block index.height s.config.params verifier = .ok (staged, undo))
    (hdelta : buildUtxoDelta staged undo = .ok delta) :
    Adopts verifier s block index s.tip.height [⟨block.header.blockId, index.withBody, block⟩]
      [undo] staged delta := by
  have hpath := PathOk.of_extension h hc hparent
  have hheavy : s.tip.cumulativeWork < index.cumulativeWork := by
    obtain ⟨r, hr, htip⟩ := h.active.tipRecord
    obtain ⟨p, hp, hchild⟩ := hc.link h.active h.index
    rw [hparent] at hp
    obtain rfl : r = p := Option.some.inj (hr.symm.trans hp)
    rw [← htip]
    exact hchild.work_lt
  refine ⟨hc, hheavy, hpath, [], s.utxos, ∅, by rw [Nat.sub_self]; rfl, rfl, ?_⟩
  have hrecord : recordConnectDelta ∅ staged undo = .ok delta :=
    recordConnect_ok.mpr (recordConnect_ok.mp hdelta)
  simp only [connectCandidates, BlockIndexRecord.withBody, hconnect, hrecord, Except.mapError]
  rfl

theorem extendTo_eq_reorgTo (hc : Candidate s block index) (undo : BlockUndo) (staged : UtxoState)
    (delta : UtxoDelta) : s.extendTo block index undo staged delta =
      s.reorgTo s.tip.height [⟨block.header.blockId, index.withBody, block⟩] [undo] staged delta
        index.tip := by
  unfold ChainState.extendTo ChainState.reorgTo
  rw [hc.tip_eq]
  simp [BlockIndexRecord.validated, BlockIndexRecord.withBody]

/-- What a call can do to a consistent state: an extension is a reorganization that
disconnects nothing. -/
inductive Change (verifier : SpendVerifier) (s : ChainState) : Request → ChainState → Prop where
  | idle (request : Request) (health : SessionHealth) (stored : Option NodeHealth)
      (kept : health = .healthy → s.sessionHealth = .healthy ∧ stored = s.db.health) :
      Change verifier s request
        { s with sessionHealth := health, db := { s.db with health := stored } }
  | headerStored {index : BlockIndexRecord} (fresh : Fresh s index) :
      Change verifier s (.acceptHeader index.header) (s.storeHeader index)
  | sideStored {block : Block} {index : BlockIndexRecord} (candidate : Candidate s block index)
      (parent : index.parent ≠ s.tip.blockId)
      (light : index.cumulativeWork ≤ s.tip.cumulativeWork) :
      Change verifier s (.acceptBlock block) (s.storeSide block index)
  | marked {block : Block} {index : BlockIndexRecord} {forkHeight : ℕ}
      {path suffix : List ReorgCandidate}
      (rejects : Rejects verifier s block index forkHeight path suffix) :
      Change verifier s (.acceptBlock block) (s.markPath block.header.blockId suffix)
  | adopted {block : Block} {index : BlockIndexRecord} {forkHeight : ℕ}
      {path : List ReorgCandidate} {undos : List BlockUndo} {staged : UtxoState} {delta : UtxoDelta}
      (adopts : Adopts verifier s block index forkHeight path undos staged delta) :
      Change verifier s (.acceptBlock block)
        (s.reorgTo forkHeight path undos staged delta index.tip)
  | pruned {db' : OregonDb} (pruned : Pruned s.db s.tip.height db') :
      Change verifier s .prune { s with db := db' }

theorem Effect.change {request : Request} {s' : ChainState} {reply : Result Reply}
    (h : Consistent s) (he : Effect verifier s request s' reply) : Change verifier s request s' := by
  cases he with
  | refused => exact .idle _ s.sessionHealth s.db.health fun hh => ⟨hh, rfl⟩
  | faulted => exact .idle _ .storageFaulted s.db.health fun hh => by cases hh
  | answered => exact .idle _ s.sessionHealth s.db.health fun hh => ⟨hh, rfl⟩
  | headerStored fresh => exact .headerStored fresh
  | extended candidate parent connect deltaOk =>
    rw [extendTo_eq_reorgTo candidate]
    exact .adopted (extension_adopts h candidate parent connect deltaOk)
  | sideStored candidate parent light => exact .sideStored candidate parent light
  | deep => exact .idle _ .reindexRequired (some .reindexRequired) fun hh => by cases hh
  | marked candidate parent heavy pathOk plan disconnect connect =>
    exact .marked ⟨candidate, parent, heavy, pathOk, _, _, _, _, plan, disconnect, connect⟩
  | reorganized candidate parent heavy pathOk plan disconnect connect =>
    exact .adopted ⟨candidate, heavy, pathOk, _, _, _, reorgPlan_old plan, disconnect, connect⟩
  | pruned plan => exact .pruned (planPrune_pruned h.index plan)

theorem step_change (h : Consistent s) (call : Call) :
    Change verifier s call.request (step verifier s call).1 := (step_effect h.index call).change h

theorem Consistent.change {request : Request} {s' : ChainState} (h : Consistent s)
    (hc : Change verifier s request s') : Consistent s' := by
  cases hc with
  | idle _ health stored kept =>
    refine ⟨h.index, ⟨h.active.bottom, h.active.top, h.active.above, h.active.record,
      h.active.tipRecord⟩, h.headerTip, h.storedTip, h.storedHeaderTip, h.storedConfig, ?_, h.bodies⟩
    intro hhealthy
    obtain ⟨hold, hstored⟩ := kept hhealthy
    exact hstored.trans (h.storedHealth hold)
  | headerStored fresh => exact h.storeHeader fresh
  | sideStored candidate => exact h.storeSide candidate
  | marked rejects => exact h.markPath rejects.candidate rejects.pathOk rejects.mem_path
  | adopted adopts => exact h.reorgTo adopts.candidate adopts.pathOk
  | pruned pruned => exact h.pruned pruned

theorem Change.evolves {request : Request} {s' : ChainState} (h : Consistent s)
    (hc : Change verifier s request s') : Evolves s s'.db.blockIndex := by
  cases hc with
  | idle => exact .refl s
  | headerStored fresh =>
    rw [ChainState.storeHeader, ChainState.prefer_blockIndex]
    exact fresh.evolves h
  | sideStored candidate => exact candidate.evolves h
  | marked rejects =>
    exact rejects.pathOk.evolves h rejects.candidate rejects.mem_path fun _ => ⟨rfl, rfl, rfl, rfl⟩
  | adopted adopts =>
    rw [ChainState.reorgTo, ChainState.prefer_blockIndex]
    exact adopts.pathOk.evolves h adopts.candidate (fun _ hmem => hmem) fun _ => ⟨rfl, rfl, rfl, rfl⟩
  | pruned pruned => exact pruned.evolves h

theorem Change.config_eq {request : Request} {s' : ChainState}
    (hc : Change verifier s request s') : s'.config = s.config := by
  cases hc with
  | headerStored => exact ChainState.prefer_config _ _
  | adopted => exact reorgTo_config _ _ _ _
  | _ => rfl

end Changes

section Runs

variable {verifier : SpendVerifier} {config : ChainConfig}

/-- The state a first opening of an empty database leaves. -/
def ChainState.initial (config : ChainConfig) : ChainState where
  db := (bootstrapBatch config).foldl OregonDb.apply .empty
  config := config
  tip := ⟨config.anchorHeader.blockId, 0, 0⟩
  headerTip := ⟨config.anchorHeader.blockId, 0, 0⟩
  utxos := .new
  sessionHealth := .healthy

theorem bootstrapped_eq {s : ChainState} (h : Bootstrapped config s) :
    validateConfig config = .ok () ∧ s = .initial config := by
  simp only [Bootstrapped, ChainState.openDb, bootstrap, bind_eq_ok, exists_unit, ensure_eq_ok,
    mapError_eq_ok, pure_eq_ok, OregonDb.empty] at h
  obtain ⟨hconfig, -, db, hdb, rfl⟩ := h
  obtain ⟨-, -, rfl⟩ := commit_ok hdb
  exact ⟨hconfig, rfl⟩

omit [Crypto] in
theorem encodeBlockIndex_anchor (config : ChainConfig) :
    ∃ bytes, encodeBlockIndex (anchorRecord config) = .ok bytes := by
  have hheader : config.anchorHeader.encode.length = BLOCK_HEADER_BYTES := by
    simp [BlockHeader.encode, Hash256.asBytes, BLOCK_HEADER_BYTES]
  have hwork : (canonicalBeBytes 0).length ≤ MAX_CHAINWORK_BYTES := by decide
  simp [encodeBlockIndex, anchorRecord, hheader, hwork, pure, Except.pure, bind, Except.bind, ensure]

theorem bootstrapped_initial (h : validateConfig config = .ok ()) :
    Bootstrapped config (.initial config) := by
  obtain ⟨bytes, hbytes⟩ := encodeBlockIndex_anchor config
  have hencode : encodeOperations (bootstrapBatch config) = .ok () := by
    rw [encodeOperations, forM_eq_ok, bootstrapBatch]
    simp only [List.forall_mem_cons, encodeOperation, List.not_mem_nil, false_implies, implies_true,
      and_true]
    exact congrArg (Except.map _) hbytes
  have hcommit : OregonDb.empty.commit none (bootstrapBatch config) =
      .ok ((bootstrapBatch config).foldl OregonDb.apply .empty) := by
    rw [OregonDb.commit, hencode]
    rfl
  have hempty : OregonDb.empty.activeIdAtHeight 0 = none ∧
      OregonDb.empty.getIndex config.anchorHeader.blockId = none := by
    simp [OregonDb.activeIdAtHeight, OregonDb.getIndex, OregonDb.empty]
  rw [Bootstrapped, ChainState.openDb, h]
  change bootstrap .empty config none = _
  simp only [bootstrap, bind_eq_ok, exists_unit, ensure_eq_ok, mapError_eq_ok, pure_eq_ok, hcommit,
    Except.ok.injEq, exists_eq_left']
  exact ⟨⟨rfl, rfl, rfl, rfl, hempty.1, rfl, hempty.2⟩, rfl⟩

theorem initial_getIndex (id : Hash256) : (ChainState.initial config).db.getIndex id =
    if config.anchorHeader.blockId = id then some (anchorRecord config) else none := by
  change ((∅ : Std.ExtTreeMap Hash256 BlockIndexRecord).insert _ (anchorRecord config))[id]? = _
  rw [lookup_insert]
  simp

theorem initial_activeIdAtHeight (height : ℕ) :
    (ChainState.initial config).db.activeIdAtHeight height =
      if 0 = height then some config.anchorHeader.blockId else none := by
  change ((∅ : Std.ExtTreeMap ℕ Hash256).insert 0 _)[height]? = _
  rw [lookup_insert]
  simp

theorem Consistent.initial (config : ChainConfig) : Consistent (.initial config) := by
  have hrecord : ∀ {id r}, (ChainState.initial config).db.getIndex id = some r →
      config.anchorHeader.blockId = id ∧ r = anchorRecord config := by
    grind [initial_getIndex]
  have hanchor : (ChainState.initial config).db.getIndex config.anchorHeader.blockId =
      some (anchorRecord config) := by
    rw [initial_getIndex, if_pos rfl]
  have htip : ∃ r, (ChainState.initial config).db.getIndex config.anchorHeader.blockId = some r ∧
      r.tip = ⟨config.anchorHeader.blockId, 0, 0⟩ := ⟨_, hanchor, rfl⟩
  refine ⟨⟨fun id r hr => ?_, hanchor, fun id r hr => ?_⟩, ⟨?_, ?_, fun height hlt => ?_,
    fun height id hid => ?_, htip⟩, htip, rfl, rfl, ⟨rfl, rfl⟩, fun _ => rfl, fun id r hr hbody => ?_⟩
  · obtain ⟨rfl, rfl⟩ := hrecord hr
    exact ⟨rfl, rfl⟩
  · exact Or.inl (hrecord hr).1.symm
  · rw [initial_activeIdAtHeight, if_pos rfl]
    rfl
  · exact (initial_activeIdAtHeight 0).trans (if_pos rfl)
  · exact (initial_activeIdAtHeight height).trans (if_neg (Nat.ne_of_lt hlt))
  · rw [initial_activeIdAtHeight] at hid
    split_ifs at hid with hzero
    obtain rfl := Option.some.inj hid
    exact ⟨_, hanchor, hzero, rfl, fun k hk => by omega⟩
  · obtain ⟨-, rfl⟩ := hrecord hr
    cases hbody

/-- What every call keeps, every run keeps. -/
theorem run_inv {P : ChainState → Prop} {s : ChainState} {calls : List Call} (init : P s)
    (hstep : ∀ t call, call ∈ calls → P t → P (step verifier t call).1) :
    P (run verifier s calls) := by
  induction calls generalizing s with
  | nil => exact init
  | cons call calls ih =>
    exact ih (hstep s call (List.mem_cons_self ..) init) fun t c hc =>
      hstep t c (List.mem_cons_of_mem _ hc)

theorem run_consistent {s : ChainState} {calls : List Call} (h : Bootstrapped config s) :
    Consistent (run verifier s calls) ∧ (run verifier s calls).config = config := by
  obtain ⟨-, rfl⟩ := bootstrapped_eq h
  refine run_inv (P := fun t => Consistent t ∧ t.config = config) ⟨.initial config, rfl⟩ ?_
  rintro t call - ⟨ht, hconfig⟩
  have hchange : Change verifier t call.request _ := step_change ht call
  exact ⟨ht.change hchange, hchange.config_eq.trans hconfig⟩

end Runs

end

end Oregon
