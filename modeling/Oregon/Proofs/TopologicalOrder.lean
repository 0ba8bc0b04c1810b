import Oregon.Lib.LinearExtension
import Oregon.Proofs.PoolInvariant

/-! The order of a pool's entries: there is one exactly when the links are in order, it is the
smallest of all orders that put parents first, and so it is the same for all pools with the
same transactions. -/

namespace Oregon.Pool

open Lib Relation
open Std (ExtTreeMap ExtTreeSet)

/-- Links that stay among the entries, that both ends know of, and no way back along them. -/
structure Consistent (entries : Entries) : Prop where
  symm : ∀ a b, a ∈ entries → b ∈ entries → (ParentOf entries a b ↔ ChildOf entries b a)
  parents : ∀ a b, ParentOf entries a b → b ∈ entries
  children : ∀ a b, ChildOf entries a b → b ∈ entries
  acyclic : ∀ a, ¬ TransGen (ParentOf entries) a a

/-- Every entry once, after all its parents. -/
abbrev ParentsFirst (entries : Entries) : List Hash256 → Prop :=
  Graph.LinearExtension entries MempoolEntry.parents

variable {entries : Entries} {order : List Hash256}

theorem mem_of_link {links : MempoolEntry → ExtTreeSet Hash256} {a b : Hash256}
    (h : Graph.Link entries links a b) : a ∈ entries := by
  obtain ⟨e, he, -⟩ := h
  exact (mem_iff_lookup _ _).mpr ⟨e, he⟩

theorem linked_iff : Linked entries ↔ Consistent entries := by
  constructor
  · intro h
    refine ⟨fun a b _ _ => h.symm a b, fun a b => h.parent_mem, fun a b => h.child_mem, ?_⟩
    exact fun a haa => h.irrefl a (h.mem_descendants_iff.mpr haa)
  · intro h
    refine ⟨fun a b => ?_, Graph.exists_rank h.parents h.acyclic⟩
    constructor
    · intro hlink
      exact (h.symm a b (mem_of_link hlink) (h.parents a b hlink)).mp hlink
    · intro hlink
      exact (h.symm a b (h.children b a hlink) (mem_of_link hlink)).mpr hlink

theorem checkLinks_symm (h : checkLinks entries = .ok ()) (a b : Hash256) :
    ParentOf entries a b ↔ ChildOf entries b a := by
  rw [checkLinks, forM_eq_ok] at h
  constructor
  · rintro ⟨e, he, hb⟩
    have hentry := h (a, e) (ExtTreeMap.mem_toList_iff_getElem?_eq_some.mpr he)
    simp only [bind_eq_ok, forM_eq_ok, exists_unit, orElse_eq_ok, ensure_eq_ok] at hentry
    exact hentry.1 b (ExtTreeSet.mem_toList.mpr hb)
  · rintro ⟨e, he, ha⟩
    have hentry := h (b, e) (ExtTreeMap.mem_toList_iff_getElem?_eq_some.mpr he)
    simp only [bind_eq_ok, forM_eq_ok, exists_unit, orElse_eq_ok, ensure_eq_ok] at hentry
    exact hentry.2 a (ExtTreeSet.mem_toList.mpr ha)

/-- An order that is returned puts parents first, and is the greedy one. -/
theorem topologicalOrder_greedy (h : topologicalOrder entries = .ok order) :
    (∀ a b, ParentOf entries a b ↔ ChildOf entries b a) ∧ ParentsFirst entries order ∧
      Graph.Greedy entries MempoolEntry.parents order := by
  obtain ⟨_, hcheck, h⟩ := bind_eq_ok.mp h
  obtain ⟨emitted, horder, h⟩ := bind_eq_ok.mp h
  obtain ⟨_, hsize, h⟩ := bind_eq_ok.mp h
  obtain rfl := pure_eq_ok.mp h
  have hsymm := checkLinks_symm hcheck
  obtain ⟨l, hok, hl⟩ := Graph.order_emits violation Halt.divergence hsymm
  obtain rfl : l = emitted := Except.ok.inj (hok.symm.trans horder)
  have hperm : l.Perm entries.keys := by
    refine (hl.nodup.subperm fun k hk => ExtTreeMap.mem_keys.mpr (hl.mem k hk)).perm_of_length_le ?_
    rw [ExtTreeMap.length_keys, ensure_eq_ok.mp hsize]
  refine ⟨hsymm, hl.greedy.linearExtension hl.nodup fun k => ?_, hl.greedy⟩
  rw [hperm.mem_iff, ExtTreeMap.mem_keys]

theorem topologicalOrder_linked (h : topologicalOrder entries = .ok order) : Linked entries := by
  obtain ⟨hsymm, hfirst, -⟩ := topologicalOrder_greedy h
  exact ⟨hsymm, order.idxOf, fun a b hlink => hfirst.idxOf_lt hlink (mem_of_link hlink)⟩

theorem lex_lt {l l' : List Hash256} (h : l.Lex (fun a b => compare a b = .lt) l') : l < l' := by
  induction h with
  | nil => exact .nil
  | cons _ ih => exact .cons ih
  | rel hlt => exact .rel (compareOfLessAndEq_eq_lt.mp hlt)

theorem topologicalOrder_le (h : topologicalOrder entries = .ok order) {other : List Hash256}
    (hother : ParentsFirst entries other) : order ≤ other := by
  obtain ⟨-, hfirst, hgreedy⟩ := topologicalOrder_greedy h
  rcases hfirst.greedy_le hgreedy hother with rfl | hlex
  · exact List.le_refl _
  · exact List.le_of_lt (lex_lt hlex)

/-- Entries with the same ids and the same parents. -/
def SameParents (entries entries' : Entries) : Prop :=
  (∀ k, k ∈ entries ↔ k ∈ entries') ∧ ∀ a b, ParentOf entries a b ↔ ParentOf entries' a b

theorem SameParents.parentsFirst {entries' : Entries} (h : SameParents entries entries')
    (hfirst : ParentsFirst entries order) : ParentsFirst entries' order where
  nodup := hfirst.nodup
  mem k := (hfirst.mem k).trans (h.1 k)
  parents pre k post heq p hlink := hfirst.parents pre k post heq p ((h.2 k p).mpr hlink)

/-- The order depends on the ids and the parents only. -/
theorem SameParents.order_eq {entries' : Entries} {order' : List Hash256}
    (h : SameParents entries entries') (horder : topologicalOrder entries = .ok order)
    (horder' : topologicalOrder entries' = .ok order') : order = order' := by
  have hsymm : SameParents entries' entries :=
    ⟨fun k => (h.1 k).symm, fun a b => (h.2 a b).symm⟩
  refine List.le_antisymm (topologicalOrder_le horder ?_) (topologicalOrder_le horder' ?_)
  · exact hsymm.parentsFirst (topologicalOrder_greedy horder').2.1
  · exact h.parentsFirst (topologicalOrder_greedy horder).2.1

section

variable [Crypto] {utxos : ChainBase → UtxoState} {pool pool' : Mempool}

/-- Two pools with the same transactions, whose chains hold the same of what these spend, as the
chains of pools with one base do. -/
structure SamePooled (utxos : ChainBase → UtxoState) (pool pool' : Mempool) : Prop where
  transactions : ∀ txid : Hash256, pool.entries[txid]?.map MempoolEntry.transaction =
    pool'.entries[txid]?.map MempoolEntry.transaction
  coins : ∀ (txid : Hash256) (e : MempoolEntry), pool.entries[txid]? = some e → ∀ o ∈ e.claims,
    ((utxos pool.base).get o = none ↔ (utxos pool'.base).get o = none)

omit [Crypto] in
theorem SamePooled.entry (h : SamePooled utxos pool pool') {txid : Hash256} {e : MempoolEntry}
    (he : pool.entries[txid]? = some e) :
    ∃ e', pool'.entries[txid]? = some e' ∧ e'.claims = e.claims := by
  have hmap := h.transactions txid
  rw [he, Option.map_some] at hmap
  grind [MempoolEntry.claims]

omit [Crypto] in
theorem SamePooled.symm (h : SamePooled utxos pool pool') : SamePooled utxos pool' pool where
  transactions txid := (h.transactions txid).symm
  coins txid e' he' o ho := by
    have hmap := h.transactions txid
    rw [he', Option.map_some] at hmap
    obtain ⟨e, he, -⟩ := Option.map_eq_some_iff.mp hmap
    obtain ⟨e₁, he₁, hclaims⟩ := h.entry he
    obtain rfl := Option.some.inj (he₁.symm.trans he')
    exact (h.coins txid e he o (hclaims ▸ ho)).symm

theorem SamePooled.parentOf (h : SamePooled utxos pool pool') (hs : Sound (utxos pool.base) pool)
    (hs' : Sound (utxos pool'.base) pool') {a b : Hash256} (hlink : ParentOf pool.entries a b) :
    ParentOf pool'.entries a b := by
  obtain ⟨e, he, hb⟩ := hlink
  obtain ⟨e', he', hclaims⟩ := h.entry he
  obtain ⟨o, ho, hnone, htxid⟩ := ((hs.entry a e he).parents b).mp hb
  refine ⟨e', he', ((hs'.entry a e' he').parents b).mpr ⟨o, hclaims ▸ ho, ?_, htxid⟩⟩
  exact (h.coins a e he o ho).mp hnone

omit [Crypto] in
theorem SamePooled.mem (h : SamePooled utxos pool pool') {txid : Hash256}
    (hmem : txid ∈ pool.entries) : txid ∈ pool'.entries := by
  obtain ⟨e, he⟩ := (mem_iff_lookup _ _).mp hmem
  obtain ⟨e', he', -⟩ := h.entry he
  exact (mem_iff_lookup _ _).mpr ⟨e', he'⟩

theorem SamePooled.sameParents (h : SamePooled utxos pool pool')
    (hs : Sound (utxos pool.base) pool) (hs' : Sound (utxos pool'.base) pool') :
    SameParents pool.entries pool'.entries :=
  ⟨fun _ => ⟨h.mem, h.symm.mem⟩, fun _ _ => ⟨h.parentOf hs hs', h.symm.parentOf hs' hs⟩⟩

/-- There is an order exactly when the links are in order; it is the smallest that puts parents
first, and for pools it depends on the pooled transactions only. -/
theorem order_smallest (utxos : ChainBase → UtxoState) :
    (∀ entries, (∃ order, topologicalOrder entries = .ok order) ↔ Consistent entries) ∧
    (∀ entries order, topologicalOrder entries = .ok order → ParentsFirst entries order ∧
      ∀ other, ParentsFirst entries other → order ≤ other) ∧
    ∀ pool pool', Reachable utxos pool → Reachable utxos pool' → SamePooled utxos pool pool' →
      ∃ order, topologicalOrder pool.entries = .ok order ∧
        topologicalOrder pool'.entries = .ok order := by
  refine ⟨fun entries => ?_, fun entries order h => ?_, fun pool pool' h h' hsame => ?_⟩
  · rw [← linked_iff]
    constructor
    · rintro ⟨order, h⟩
      exact topologicalOrder_linked h
    · intro h
      obtain ⟨order, hok, -⟩ := h.topologicalOrder_ok
      exact ⟨order, hok⟩
  · exact ⟨(topologicalOrder_greedy h).2.1, fun other => topologicalOrder_le h⟩
  · obtain ⟨order, hok, -⟩ := h.sound.linked.topologicalOrder_ok
    obtain ⟨order', hok', -⟩ := h'.sound.linked.topologicalOrder_ok
    obtain rfl := (hsame.sameParents h.sound h'.sound).order_eq hok hok'
    exact ⟨order, hok, hok'⟩

end

open Oregon.Sample Oregon.Pool.Sample in
/-- Two pools that were filled in different orders. -/
theorem order_smallest_sample :
    topologicalOrder (after [parent, child, other]).entries = .ok [2, 1, 3] ∧
    topologicalOrder (after [other, parent, child]).entries = .ok [2, 1, 3] ∧
    ∀ order, ParentsFirst (after [other, parent, child]).entries order → [2, 1, 3] ≤ order := by
  have horder : topologicalOrder (after [parent, child, other]).entries = .ok [2, 1, 3] := by
    decide +kernel
  have hpool : after [parent, child, other] = after [other, parent, child] := by decide +kernel
  obtain ⟨-, hfirst, hpools⟩ := order_smallest utxos
  obtain ⟨order, hone, htwo⟩ := hpools _ (after [other, parent, child]) (reachable_after _)
    (reachable_after _) (by rw [hpool]; exact ⟨fun _ => rfl, by simp⟩)
  obtain rfl := Except.ok.inj (hone.symm.trans horder)
  exact ⟨hone, htwo, (hfirst _ _ htwo).2⟩

end Oregon.Pool
