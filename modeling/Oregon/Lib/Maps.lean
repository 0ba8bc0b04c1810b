import Oregon.Lib.Result

/-! Finite maps, on top of the extensional tree maps of the standard library:
erasing and inserting lists of keys, the sum of a weight over all entries, the
difference of two maps as an undo record, and overlays of pending changes. -/

namespace Lib

open Std

variable {K V : Type} [Ord K] [TransOrd K]

theorem mem_iff_lookup (m : ExtTreeMap K V) (k : K) : k ∈ m ↔ ∃ v, m[k]? = some v := by
  rw [ExtTreeMap.mem_iff_isSome_getElem?, Option.isSome_iff_exists]

theorem notMem_iff_lookup (m : ExtTreeMap K V) (k : K) : k ∉ m ↔ m[k]? = none := by
  rw [ExtTreeMap.mem_iff_isSome_getElem?, Option.not_isSome_iff_eq_none]

theorem size_insert_of_notMem {m : ExtTreeMap K V} {k : K} (v : V) (h : k ∉ m) :
    (m.insert k v).size = m.size + 1 := by
  simp [ExtTreeMap.size_insert, h]

theorem size_erase_of_mem {m : ExtTreeMap K V} {k : K} (h : k ∈ m) :
    (m.erase k).size + 1 = m.size := by
  have hne : m.size ≠ 0 := by
    rw [ne_eq, ← ExtTreeMap.eq_empty_iff_size_eq_zero]
    grind
  grind

theorem setSize_insert_of_notMem {s : ExtTreeSet K} {k : K} (h : k ∉ s) :
    (s.insert k).size = s.size + 1 := by
  simp [ExtTreeSet.size_insert, h]

theorem nodup_toList_keys (m : ExtTreeMap K V) : (m.toList.map Prod.fst).Nodup := by
  rw [ExtTreeMap.map_fst_toList_eq_keys]
  exact ExtTreeMap.nodup_keys

/-- The weight `f` summed over the entries of a map. -/
def mapSum (f : V → ℕ) (m : ExtTreeMap K V) : ℕ := (m.toList.map fun e => f e.2).sum

@[simp] theorem mapSum_empty (f : V → ℕ) : mapSum f (∅ : ExtTreeMap K V) = 0 := rfl

theorem mapSum_one (m : ExtTreeMap K V) : mapSum (fun _ => 1) m = m.size := by
  rw [mapSum, List.map_const', List.sum_replicate, ExtTreeMap.length_toList]
  simp

/-- The entries of `before` that `after` lacks. -/
def lostFrom (before after : ExtTreeMap K V) : ExtTreeMap K V :=
  before.filter fun k _ => !after.contains k

/-- One pending change: a new value, or removal. -/
def applyChange (m : ExtTreeMap K V) (e : K × Option V) : ExtTreeMap K V :=
  match e.2 with
  | some v => m.insert e.1 v
  | none => m.erase e.1

@[simp] theorem applyChange_some (m : ExtTreeMap K V) (k : K) (v : V) :
    applyChange m (k, some v) = m.insert k v := rfl

@[simp] theorem applyChange_none (m : ExtTreeMap K V) (k : K) :
    applyChange m (k, none) = m.erase k := rfl

/-- Changes applied in order. -/
def applyChanges (l : List (K × Option V)) (m : ExtTreeMap K V) : ExtTreeMap K V :=
  l.foldl applyChange m

@[simp] theorem applyChanges_nil (m : ExtTreeMap K V) : applyChanges [] m = m := rfl

@[simp] theorem applyChanges_cons (e : K × Option V) (l : List (K × Option V))
    (m : ExtTreeMap K V) : applyChanges (e :: l) m = applyChanges l (applyChange m e) := rfl

theorem applyChanges_append (l l' : List (K × Option V)) (m : ExtTreeMap K V) :
    applyChanges (l ++ l') m = applyChanges l' (applyChanges l m) := List.foldl_append

/-- Pending changes laid over a map: at a key with a change the change decides. -/
def overlay (d : ExtTreeMap K (Option V)) (m : ExtTreeMap K V) : ExtTreeMap K V :=
  applyChanges d.toList m

variable [LawfulEqOrd K]

theorem mem_insert_iff {m : ExtTreeMap K V} {k a : K} {v : V} : a ∈ m.insert k v ↔ k = a ∨ a ∈ m := by
  rw [ExtTreeMap.mem_insert, LawfulEqOrd.compare_eq_iff_eq]

theorem mem_erase_iff {m : ExtTreeMap K V} {k a : K} : a ∈ m.erase k ↔ k ≠ a ∧ a ∈ m := by
  rw [ExtTreeMap.mem_erase, ne_eq, LawfulEqOrd.compare_eq_iff_eq]

theorem mem_setInsert_iff {s : ExtTreeSet K} {k a : K} : a ∈ s.insert k ↔ k = a ∨ a ∈ s := by
  rw [ExtTreeSet.mem_insert, LawfulEqOrd.compare_eq_iff_eq]

theorem lookup_insertMany_of_notMem {l : List (K × V)} {m : ExtTreeMap K V} {a : K}
    (h : a ∉ l.map Prod.fst) : (m.insertMany l)[a]? = m[a]? := by
  induction l generalizing m with
  | nil => simp
  | cons e l ih => grind

theorem toList_insert_perm {m : ExtTreeMap K V} {k : K} (v : V) (h : m[k]? = none) :
    (m.insert k v).toList.Perm ((k, v) :: m.toList) := by
  have hnd : ∀ m : ExtTreeMap K V, m.toList.Nodup :=
    fun m => List.Nodup.of_map _ (nodup_toList_keys m)
  have hk : (k, v) ∉ m.toList := by simp_all
  refine (List.perm_ext_iff_of_nodup (hnd _) (List.nodup_cons.mpr ⟨hk, hnd m⟩)).mpr ?_
  grind

section Sum

variable (f : V → ℕ)

theorem mapSum_insert {m : ExtTreeMap K V} {k : K} (v : V) (h : m[k]? = none) :
    mapSum f (m.insert k v) = f v + mapSum f m := by
  have hp := ((toList_insert_perm v h).map fun e => f e.2).sum_eq
  simpa [mapSum] using hp

theorem mapSum_erase {m : ExtTreeMap K V} {k : K} {v : V} (h : m[k]? = some v) :
    mapSum f (m.erase k) + f v = mapSum f m := by
  have hback : (m.erase k).insert k v = m := by grind
  grind [mapSum_insert]

/-- Distinct fresh keys bring their weights. -/
theorem mapSum_insertMany {l : List (K × V)} {m : ExtTreeMap K V} (hn : (l.map Prod.fst).Nodup)
    (hf : ∀ e ∈ l, m[e.1]? = none) :
    mapSum f (m.insertMany l) = mapSum f m + (l.map fun e => f e.2).sum := by
  induction l generalizing m with
  | nil => simp
  | cons e l ih =>
    obtain ⟨k, v⟩ := e
    rw [List.map_cons, List.nodup_cons] at hn
    have hrest := ih (m := m.insert k v) hn.2 fun e he => by
      grind
    rw [ExtTreeMap.insertMany_cons, hrest,
      mapSum_insert f v (hf (k, v) (List.mem_cons_self ..)), List.map_cons, List.sum_cons,
      Nat.add_comm (f v), Nat.add_assoc]

/-- Only the weights at the keys matter. -/
theorem mapSum_congr {W : Type} {g : W → ℕ} {m : ExtTreeMap K V} {n : ExtTreeMap K W}
    (h : ∀ k : K, m[k]?.map f = n[k]?.map g) : mapSum f m = mapSum g n := by
  have hkeys : ∀ {W : Type} (g : W → ℕ) (n : ExtTreeMap K W),
      mapSum g n = (n.keys.map fun k => (n[k]?.map g).getD 0).sum := by
    intro W g n
    rw [mapSum, ← ExtTreeMap.map_fst_toList_eq_keys, List.map_map]
    refine congrArg List.sum (List.map_congr_left fun e he => ?_)
    simp [ExtTreeMap.mem_toList_iff_getElem?_eq_some.mp he]
  have hperm : m.keys.Perm n.keys := by
    refine (List.perm_ext_iff_of_nodup ExtTreeMap.nodup_keys ExtTreeMap.nodup_keys).mpr fun k => ?_
    grind
  rw [hkeys, hkeys]
  simp only [h]
  exact (hperm.map _).sum_eq

theorem size_le_mapSum {m : ExtTreeMap K V} (h : ∀ (k : K) (v : V), m[k]? = some v → 0 < f v) :
    m.size ≤ mapSum f m := by
  rw [← ExtTreeMap.length_toList, mapSum, ← List.length_map fun e => f e.2]
  refine List.length_le_sum_of_one_le _ fun n hn => ?_
  grind

/-- An entry takes the place of the one under its key. -/
theorem mapSum_replace (m : ExtTreeMap K V) (k : K) (v : V) :
    mapSum f (m.insert k v) + (m[k]?).elim 0 f = f v + mapSum f m := by
  cases h : m[k]? with
  | none => exact mapSum_insert f v h
  | some w =>
    have hback : (m.erase k).insert k v = m.insert k v := by grind
    have hins := mapSum_insert f (m := m.erase k) (k := k) v (by simp)
    have herase := mapSum_erase f h
    grind

/-- Distinct keys that are present take their weights with them. -/
theorem mapSum_eraseAll {ks : List K} {m : ExtTreeMap K V} {g : K → ℕ} (hn : ks.Nodup)
    (hg : ∀ k ∈ ks, ∃ v, m[k]? = some v ∧ f v = g k) :
    mapSum f (ks.foldl (·.erase ·) m) + (ks.map g).sum = mapSum f m := by
  induction ks generalizing m with
  | nil => simp
  | cons k ks ih =>
    rw [List.nodup_cons] at hn
    obtain ⟨v, hv, hgv⟩ := hg k (List.mem_cons_self ..)
    have hrest := ih (m := m.erase k) hn.2 fun a ha => by
      grind
    have hk := mapSum_erase f hv
    grind

end Sum

theorem lookup_lostFrom (before after : ExtTreeMap K V) (k : K) :
    (lostFrom before after)[k]? = if k ∈ after then none else before[k]? := by
  rw [lostFrom, ExtTreeMap.getElem?_filter']
  grind

/-- Erasing with a presence check at every key. -/
theorem eraseEach_ok {ε : Type} (e : ε) {ks : List K} {m : ExtTreeMap K V} (hn : ks.Nodup) (h : ∀ k ∈ ks, k ∈ m) :
    ks.foldlM (fun (m : ExtTreeMap K V) k => do ensure (k ∈ m) e; pure (m.erase k)) m =
      .ok (ks.foldl (·.erase ·) m) := by
  induction ks generalizing m with
  | nil => rfl
  | cons k ks ih =>
    rw [List.nodup_cons] at hn
    have hk := h k (List.mem_cons_self ..)
    have hrest := ih (m := m.erase k) hn.2 fun a ha => by
      grind
    simpa [ensure, hk, ok_bind] using hrest

/-- Inserting with an absence check at every key. -/
theorem insertEach_ok {ε : Type} (e : K → ε) {l : List (K × V)} {m : ExtTreeMap K V} (hn : (l.map Prod.fst).Nodup) (h : ∀ a ∈ l, a.1 ∉ m) :
    l.foldlM (fun (m : ExtTreeMap K V) a => do ensure (a.1 ∉ m) (e a.1); pure (m.insert a.1 a.2)) m =
      .ok (m.insertMany l) := by
  induction l generalizing m with
  | nil => simp [pure, Except.pure]
  | cons a l ih =>
    obtain ⟨k, v⟩ := a
    rw [List.map_cons, List.nodup_cons] at hn
    have hk := h (k, v) (List.mem_cons_self ..)
    have hrest := ih (m := m.insert k v) hn.2 fun b hb => by
      grind
    rw [ExtTreeMap.insertMany_cons, ← hrest]
    simp [ensure, hk, ok_bind]

variable [DecidableEq K]

theorem lookup_insert (m : ExtTreeMap K V) (k a : K) (v : V) :
    (m.insert k v)[a]? = if k = a then some v else m[a]? := by
  simp [ExtTreeMap.getElem?_insert]

theorem lookup_erase (m : ExtTreeMap K V) (k a : K) :
    (m.erase k)[a]? = if k = a then none else m[a]? := by
  simp [ExtTreeMap.getElem?_erase]

theorem lookup_eraseAll (ks : List K) (m : ExtTreeMap K V) (a : K) :
    (ks.foldl (·.erase ·) m)[a]? = if a ∈ ks then none else m[a]? := by
  induction ks generalizing m with
  | nil => simp
  | cons k ks ih => grind

theorem lookup_insertMany_of_mem {l : List (K × V)} {m : ExtTreeMap K V} {a : K} {v : V}
    (hn : (l.map Prod.fst).Nodup) (h : (a, v) ∈ l) : (m.insertMany l)[a]? = some v := by
  induction l generalizing m with
  | nil => simp at h
  | cons e l ih =>
    rw [List.map_cons, List.nodup_cons] at hn
    rw [ExtTreeMap.insertMany_cons]
    rcases List.mem_cons.mp h with heq | h
    · obtain ⟨rfl, rfl⟩ := Prod.mk.inj heq
      rw [lookup_insertMany_of_notMem hn.1, lookup_insert, if_pos rfl]
    · exact ih hn.2 h

/-- Taking out what came and putting back what went restores a map, when the two
maps agree on the keys they share. -/
theorem undo_restores {before after : ExtTreeMap K V}
    (hagree : ∀ k ∈ before, k ∈ after → after[k]? = before[k]?) :
    ((lostFrom after before).keys.foldl (·.erase ·) after).insertMany
      (lostFrom before after).toList = before := by
  refine ExtTreeMap.ext_getElem? fun a => ?_
  by_cases hb : a ∈ before
  · obtain ⟨v, hv⟩ := (mem_iff_lookup before a).mp hb
    by_cases ha : a ∈ after
    · have hspent : a ∉ (lostFrom before after).toList.map Prod.fst := by
        rw [ExtTreeMap.map_fst_toList_eq_keys, ExtTreeMap.mem_keys, notMem_iff_lookup,
          lookup_lostFrom, if_pos ha]
      have hcreated : a ∉ (lostFrom after before).keys := by
        rw [ExtTreeMap.mem_keys, notMem_iff_lookup, lookup_lostFrom, if_pos hb]
      rw [lookup_insertMany_of_notMem hspent, lookup_eraseAll, if_neg hcreated, hagree a hb ha]
    · have hmem : (a, v) ∈ (lostFrom before after).toList := by
        rw [ExtTreeMap.mem_toList_iff_getElem?_eq_some, lookup_lostFrom, if_neg ha, hv]
      rw [lookup_insertMany_of_mem (nodup_toList_keys _) hmem, hv]
  · have hnone := (notMem_iff_lookup before a).mp hb
    have hspent : a ∉ (lostFrom before after).toList.map Prod.fst := by
      rw [ExtTreeMap.map_fst_toList_eq_keys, ExtTreeMap.mem_keys, notMem_iff_lookup,
        lookup_lostFrom, hnone, ite_self]
    rw [lookup_insertMany_of_notMem hspent, lookup_eraseAll, hnone, ite_eq_left_iff,
      ExtTreeMap.mem_keys, notMem_iff_lookup, lookup_lostFrom, if_neg hb]
    exact id

theorem lookup_applyChange (m : ExtTreeMap K V) (e : K × Option V) (a : K) :
    (applyChange m e)[a]? = if e.1 = a then e.2 else m[a]? := by
  obtain ⟨k, _ | v⟩ := e
  · exact lookup_erase m k a
  · exact lookup_insert m k a v

/-- What is found at a key afterwards depends on what was there alone. -/
theorem lookup_applyChanges_congr {m m' : ExtTreeMap K V} {a : K} (h : m[a]? = m'[a]?)
    (l : List (K × Option V)) : (applyChanges l m)[a]? = (applyChanges l m')[a]? := by
  induction l generalizing m m' with
  | nil => exact h
  | cons e l ih => exact ih (by rw [lookup_applyChange, lookup_applyChange, h])

theorem lookup_applyChanges_of_notMem {l : List (K × Option V)} {m : ExtTreeMap K V} {a : K}
    (ha : a ∉ l.map Prod.fst) : (applyChanges l m)[a]? = m[a]? := by
  induction l generalizing m with
  | nil => rfl
  | cons e l ih =>
    simp only [List.map_cons, List.mem_cons, not_or] at ha
    rw [applyChanges_cons, ih ha.2, lookup_applyChange, if_neg (Ne.symm ha.1)]

theorem lookup_applyChanges_of_mem {l : List (K × Option V)} {m : ExtTreeMap K V} {a : K}
    {c : Option V} (hn : (l.map Prod.fst).Nodup) (hc : (a, c) ∈ l) :
    (applyChanges l m)[a]? = c := by
  induction l generalizing m with
  | nil => simp at hc
  | cons e l ih =>
    rw [List.map_cons, List.nodup_cons] at hn
    rw [applyChanges_cons]
    rcases List.mem_cons.mp hc with rfl | hc
    · rw [lookup_applyChanges_of_notMem hn.1, lookup_applyChange, if_pos rfl]
    · exact ih hn.2 hc

/-- What is found after some changes was there before, or is one of the changes. -/
theorem lookup_applyChanges_cases (l : List (K × Option V)) (m : ExtTreeMap K V) (a : K) :
    (a ∉ l.map Prod.fst ∧ (applyChanges l m)[a]? = m[a]?) ∨
      ∃ c, (a, c) ∈ l ∧ (applyChanges l m)[a]? = c := by
  induction l generalizing m with
  | nil => exact Or.inl ⟨by simp, rfl⟩
  | cons e l ih =>
    rcases ih (applyChange m e) with ⟨hnot, heq⟩ | ⟨c, hc, heq⟩
    · rw [lookup_applyChange] at heq
      by_cases hk : e.1 = a
      · rw [if_pos hk] at heq
        exact Or.inr ⟨e.2, by simp [← hk], heq⟩
      · rw [if_neg hk] at heq
        exact Or.inl ⟨by simpa [Ne.symm hk] using hnot, heq⟩
    · exact Or.inr ⟨c, List.mem_cons_of_mem _ hc, heq⟩

/-- Removing what went and writing what came leads from one map to the other, when
they agree on the keys they share. -/
theorem redo_reaches {before after : ExtTreeMap K V}
    (hagree : ∀ k ∈ before, k ∈ after → after[k]? = before[k]?) :
    applyChanges ((lostFrom before after).toList.map (fun e => (e.1, none)) ++
      (lostFrom after before).keys.map fun k => (k, after[k]?)) before = after := by
  refine ExtTreeMap.ext_getElem? fun a => ?_
  rw [applyChanges_append]
  rcases lookup_applyChanges_cases ((lostFrom after before).keys.map fun k => (k, after[k]?))
    (applyChanges ((lostFrom before after).toList.map fun e => (e.1, none)) before) a with
    ⟨hkept, heq⟩ | ⟨c, hc, heq⟩
  · rw [heq]
    have hold : a ∈ after → a ∈ before := by
      intro ha
      by_contra hb
      obtain ⟨v, hv⟩ := (mem_iff_lookup after a).mp ha
      refine hkept (List.mem_map.mpr ⟨(a, after[a]?), List.mem_map.mpr ⟨a, ?_, rfl⟩, rfl⟩)
      rw [ExtTreeMap.mem_keys, mem_iff_lookup, lookup_lostFrom, if_neg hb]
      exact ⟨v, hv⟩
    rcases lookup_applyChanges_cases ((lostFrom before after).toList.map fun e => (e.1, none))
      before a with ⟨hstays, heq'⟩ | ⟨c, hc, heq'⟩
    · rw [heq']
      by_cases hb : a ∈ before
      · by_cases ha : a ∈ after
        · exact (hagree a hb ha).symm
        · obtain ⟨v, hv⟩ := (mem_iff_lookup before a).mp hb
          refine absurd (List.mem_map.mpr ⟨(a, none), List.mem_map.mpr ⟨(a, v), ?_, rfl⟩, rfl⟩) hstays
          rw [ExtTreeMap.mem_toList_iff_getElem?_eq_some, lookup_lostFrom, if_neg ha, hv]
      · rw [(notMem_iff_lookup _ _).mp hb, (notMem_iff_lookup _ _).mp fun ha => hb (hold ha)]
    · obtain ⟨⟨k, v⟩, hmem, hpair⟩ := List.mem_map.mp hc
      obtain ⟨rfl, rfl⟩ := Prod.mk.inj hpair
      rw [ExtTreeMap.mem_toList_iff_getElem?_eq_some, lookup_lostFrom] at hmem
      simp_all
  · simp_all

/-- Changes at the keys of another map, chosen by its entries. -/
theorem lookup_applyChanges_filter {W : Type} (n : ExtTreeMap K W) (p : K × W → Bool)
    (g : K × W → Option V) (m : ExtTreeMap K V) (a : K) :
    (applyChanges ((n.toList.filter p).map fun e => (e.1, g e)) m)[a]? =
      match n[a]? with
      | some w => if p (a, w) = true then g (a, w) else m[a]?
      | none => m[a]? := by
  have hkeys : (((n.toList.filter p).map fun e => (e.1, g e)).map Prod.fst) =
      (n.toList.filter p).map Prod.fst := by
    rw [List.map_map]
    rfl
  have hmem : ∀ w, (a, w) ∈ n.toList.filter p ↔ n[a]? = some w ∧ p (a, w) = true := fun w => by
    rw [List.mem_filter, ExtTreeMap.mem_toList_iff_getElem?_eq_some]
  by_cases ha : a ∈ (n.toList.filter p).map Prod.fst
  · obtain ⟨w, hw⟩ : ∃ w, (a, w) ∈ n.toList.filter p := by simpa using ha
    obtain ⟨hlookup, hp⟩ := (hmem w).mp hw
    have hin : (a, g (a, w)) ∈ (n.toList.filter p).map fun e => (e.1, g e) :=
      List.mem_map.mpr ⟨(a, w), hw, rfl⟩
    grind [lookup_applyChanges_of_mem, nodup_toList_keys]
  · rw [lookup_applyChanges_of_notMem (hkeys ▸ ha)]
    cases hlookup : n[a]? with
    | none => rfl
    | some w => simp_all

theorem lookup_overlay (d : ExtTreeMap K (Option V)) (m : ExtTreeMap K V) (a : K) :
    (overlay d m)[a]? = (d[a]?).getD m[a]? := by
  cases hd : d[a]? with
  | some c =>
    exact lookup_applyChanges_of_mem (nodup_toList_keys d)
      (ExtTreeMap.mem_toList_iff_getElem?_eq_some.mpr hd)
  | none =>
    refine lookup_applyChanges_of_notMem ?_
    rw [ExtTreeMap.map_fst_toList_eq_keys, ExtTreeMap.mem_keys, notMem_iff_lookup, hd]

theorem overlay_insert (d : ExtTreeMap K (Option V)) (m : ExtTreeMap K V) (e : K × Option V) :
    overlay (d.insert e.1 e.2) m = applyChange (overlay d m) e := by
  refine ExtTreeMap.ext_getElem? fun a => ?_
  rw [lookup_overlay, lookup_insert, lookup_applyChange, lookup_overlay]
  split_ifs <;> rfl

/-- Changes collected one after the other act like the changes themselves. -/
theorem overlay_collect (l : List (K × Option V)) (d : ExtTreeMap K (Option V))
    (m : ExtTreeMap K V) :
    overlay (l.foldl (fun d e => d.insert e.1 e.2) d) m = applyChanges l (overlay d m) := by
  induction l generalizing d with
  | nil => rfl
  | cons e l ih => rw [List.foldl_cons, ih, overlay_insert, applyChanges_cons]

end Lib
