import Oregon.Spec.PoolAdmission

/-! The links of a pool as a graph. When both ends of every link know of it and links have a
direction, the closures and the order are what they are called, and none of the checks
on the way fails. -/

namespace Oregon.Pool

open Lib Std Relation

variable {entries : Entries}

/-- An entry leads to its parents, and to its children. -/
abbrev ParentOf (entries : Entries) : Hash256 → Hash256 → Prop :=
  Graph.Link entries MempoolEntry.parents

abbrev ChildOf (entries : Entries) : Hash256 → Hash256 → Prop :=
  Graph.Link entries MempoolEntry.children

/-- Links that both ends know of, and no way back along them. -/
structure Linked (entries : Entries) : Prop where
  symm : ∀ a b, ParentOf entries a b ↔ ChildOf entries b a
  acyclic : ∃ rank : Hash256 → ℕ, ∀ a b, ParentOf entries a b → rank b < rank a

/-- The ids that can be reached from an entry through its parents, and through its children. -/
def ancestors (entries : Entries) (txid : Hash256) : Set Hash256 :=
  {a | TransGen (ParentOf entries) txid a}

def descendants (entries : Entries) (txid : Hash256) : Set Hash256 :=
  {d | TransGen (ChildOf entries) txid d}

namespace Linked

variable (h : Linked entries)

include h

theorem layered : ∃ rank, Graph.Layered entries MempoolEntry.parents MempoolEntry.children rank := by
  obtain ⟨rank, hrank⟩ := h.acyclic
  exact ⟨rank, h.symm, hrank⟩

theorem parent_mem {a b : Hash256} (hab : ParentOf entries a b) : b ∈ entries := by
  obtain ⟨e, he, -⟩ := (h.symm a b).mp hab
  exact (mem_iff_lookup _ _).mpr ⟨e, he⟩

theorem child_mem {a b : Hash256} (hab : ChildOf entries a b) : b ∈ entries := by
  obtain ⟨e, he, -⟩ := (h.symm b a).mpr hab
  exact (mem_iff_lookup _ _).mpr ⟨e, he⟩

theorem rank_lt {rank : Hash256 → ℕ} (hrank : ∀ a b, ParentOf entries a b → rank b < rank a)
    {a b : Hash256} (hab : TransGen (ChildOf entries) a b) : rank a < rank b := by
  induction hab with
  | single hlink => exact hrank _ _ ((h.symm _ _).mpr hlink)
  | tail _ hlink ih => exact ih.trans (hrank _ _ ((h.symm _ _).mpr hlink))

theorem irrefl (a : Hash256) : ¬ TransGen (ChildOf entries) a a := by
  obtain ⟨rank, hrank⟩ := h.acyclic
  exact fun haa => lt_irrefl _ (h.rank_lt hrank haa)

/-- One's descendant has one for an ancestor. -/
theorem mem_descendants_iff {a b : Hash256} : b ∈ descendants entries a ↔ a ∈ ancestors entries b := by
  have hswap : Function.swap (ParentOf entries) = ChildOf entries := by
    ext x y
    exact h.symm y x
  rw [descendants, ancestors, Set.mem_ofPred_eq, Set.mem_ofPred_eq, ← hswap]
  exact transGen_swap

theorem descendant_mem {a b : Hash256} (hab : b ∈ descendants entries a) : b ∈ entries := by
  obtain ⟨c, -, hlink⟩ := TransGen.tail'_iff.mp hab
  exact h.child_mem hlink

theorem ancestor_mem {a b : Hash256} (hab : b ∈ ancestors entries a) : b ∈ entries := by
  obtain ⟨c, -, hlink⟩ := TransGen.tail'_iff.mp hab
  exact h.parent_mem hlink

omit h in
theorem finite_of_subset {s : Set Hash256} (hs : ∀ k ∈ s, k ∈ entries) : s.Finite :=
  (entries.keys.toFinset.finite_toSet).subset fun k hk => by
    simpa using hs k hk

theorem checkLinks_ok : checkLinks entries = .ok () := by
  rw [checkLinks, forM_eq_ok]
  rintro ⟨txid, entry⟩ hmem
  rw [ExtTreeMap.mem_toList_iff_getElem?_eq_some] at hmem
  simp only [bind_eq_ok, forM_eq_ok, exists_unit, orElse_eq_ok, ensure_eq_ok]
  constructor
  · intro parent hparent
    exact (h.symm txid parent).mp ⟨entry, hmem, ExtTreeSet.mem_toList.mp hparent⟩
  · intro child hchild
    exact (h.symm child txid).mpr ⟨entry, hmem, ExtTreeSet.mem_toList.mp hchild⟩

theorem topologicalOrder_ok : ∃ order, topologicalOrder entries = .ok order ∧ order.Nodup ∧
    (∀ k, k ∈ order ↔ k ∈ entries) ∧ order.Pairwise fun a b => ¬ ParentOf entries a b := by
  obtain ⟨rank, hlayered⟩ := h.layered
  obtain ⟨order, hok, hnodup, hmem, hordered⟩ :=
    Graph.order_spec violation .divergence hlayered
  refine ⟨order, ?_, hnodup, hmem, hordered⟩
  have hsize : order.length = entries.size := by
    rw [← ExtTreeMap.length_keys]
    exact ((List.perm_ext_iff_of_nodup hnodup ExtTreeMap.nodup_keys).mpr fun k => by
      rw [hmem, ExtTreeMap.mem_keys]).length_eq
  rw [topologicalOrder, h.checkLinks_ok, ok_bind, hok, ok_bind, ensure_ok hsize]
  rfl

omit h in
/-- The order of some of the entries. -/
theorem order_filter {order : List Hash256} (hnodup : order.Nodup)
    (hmem : ∀ k, k ∈ order ↔ k ∈ entries) {c : ExtTreeSet Hash256} (hc : ∀ k ∈ c, k ∈ entries) :
    (order.filter fun txid => txid ∈ c).length = c.size :=
  (Graph.size_eq_length (hnodup.filter _) fun k => by
    rw [List.mem_filter, hmem, decide_eq_true_eq]
    exact ⟨fun hk => hk.2, fun hk => ⟨hc k hk, hk⟩⟩).symm

theorem ancestorClosure_ok {direct : ExtTreeSet Hash256} (hdirect : ∀ p ∈ direct, p ∈ entries) :
    ∃ c, ancestorClosure entries direct = .ok c ∧ (∀ k ∈ c, k ∈ entries) ∧
      ∀ k, k ∈ c ↔ ∃ p ∈ direct, ReflTransGen (ParentOf entries) p k := by
  obtain ⟨c, hok, hc⟩ := Graph.close_spec violation .divergence
    (fun a b => h.parent_mem) hdirect
  have hmem : ∀ k ∈ c, k ∈ entries := by
    intro k hk
    obtain ⟨p, hp, hreach⟩ := (hc k).mp hk
    rcases ReflTransGen.cases_tail hreach with rfl | ⟨_, -, hlink⟩
    · exact hdirect k hp
    · exact h.parent_mem hlink
  obtain ⟨order, horder, hnodup, hall, -⟩ := h.topologicalOrder_ok
  refine ⟨c, ?_, hmem, hc⟩
  rw [ancestorClosure, hok, ok_bind, horder, ok_bind]
  dsimp only
  rw [ensure_ok (order_filter hnodup hall hmem)]
  rfl

theorem descendantClosure_ok {root : Hash256} (hroot : root ∈ entries) :
    ∃ c, descendantClosure entries root = .ok c ∧ ∀ k, k ∈ c ↔ k ∈ descendants entries root := by
  obtain ⟨e, he⟩ := (mem_iff_lookup _ _).mp hroot
  have hchildren : ∀ k ∈ e.children, k ∈ entries := fun k hk => h.child_mem ⟨e, he, hk⟩
  obtain ⟨c, hok, hc⟩ :=
    Graph.close_spec violation .divergence (fun a b => h.child_mem) hchildren
  have hmem : ∀ k, k ∈ c ↔ k ∈ descendants entries root := by
    intro k
    rw [hc, descendants, Set.mem_ofPred_eq, TransGen.head'_iff]
    constructor
    · rintro ⟨a, ha, hreach⟩
      exact ⟨a, ⟨e, he, ha⟩, hreach⟩
    · rintro ⟨a, ⟨e', he', ha⟩, hreach⟩
      exact ⟨a, Option.some.inj (he.symm.trans he') ▸ ha, hreach⟩
  have hroot' : root ∉ c := fun hin => h.irrefl root ((hmem root).mp hin)
  refine ⟨c, ?_, hmem⟩
  rw [descendantClosure, he, orElse_some, ok_bind, hok, ok_bind, ensure_ok hroot']
  rfl

end Linked

end Oregon.Pool
