import Oregon.Lib.Maps

/-! Maps of maps: an entry is found under two keys, is written with its inner map created on
demand, and one map of maps is merged over another. A weight summed over all entries
follows writes and merges, less what they replace. -/

namespace Lib

open Std

section Weight

variable {K V : Type} [Ord K] [TransOrd K] (f : K → V → ℕ)

/-- The weight `f` summed over the entries of a map. -/
def weight (m : ExtTreeMap K V) : ℕ := (m.toList.map fun e => f e.1 e.2).sum

/-- The weight of the entry at a key, nothing when there is none. -/
def weightAt (m : ExtTreeMap K V) (k : K) : ℕ := (m[k]?.map (f k)).getD 0

@[simp] theorem weight_empty : weight f (∅ : ExtTreeMap K V) = 0 := rfl

@[simp] theorem weight_one (m : ExtTreeMap K V) : weight (fun _ _ => 1) m = m.size := by
  simp [weight]

variable [LawfulEqOrd K]

theorem weight_insert_new {m : ExtTreeMap K V} {k : K} (v : V) (h : m[k]? = none) :
    weight f (m.insert k v) = f k v + weight f m := by
  have hperm := ((toList_insert_perm v h).map fun e => f e.1 e.2).sum_eq
  simpa [weight] using hperm

theorem weight_erase (m : ExtTreeMap K V) (k : K) :
    weight f (m.erase k) + weightAt f m k = weight f m := by
  unfold weightAt
  cases h : m[k]? with
  | none =>
    have hsame : m.erase k = m := by grind
    rw [hsame]
    rfl
  | some w =>
    have hback : (m.erase k).insert k w = m := by grind
    have hnew := weight_insert_new f (m := m.erase k) (k := k) w (by simp)
    grind

/-- A write adds the weight of its entry and takes that of the one it replaces. -/
theorem weight_insert (m : ExtTreeMap K V) (k : K) (v : V) :
    weight f (m.insert k v) + weightAt f m k = weight f m + f k v := by
  have herase : (m.erase k).insert k v = m.insert k v := by grind
  grind [weight_insert_new, weight_erase]

theorem weight_insertMany [DecidableEq K] {l : List (K × V)} (m : ExtTreeMap K V)
    (hn : (l.map Prod.fst).Nodup) :
    weight f (m.insertMany l) + (l.map fun e => weightAt f m e.1).sum =
      weight f m + (l.map fun e => f e.1 e.2).sum := by
  induction l generalizing m with
  | nil => simp
  | cons e l ih =>
    obtain ⟨k, v⟩ := e
    obtain ⟨hk, hn⟩ := List.nodup_cons.mp hn
    have hsame : (l.map fun e => weightAt f (m.insert k v) e.1) =
        l.map fun e => weightAt f m e.1 := by
      refine List.map_congr_left fun e he => ?_
      have hne : k ≠ e.1 := fun heq => hk (heq ▸ List.mem_map.mpr ⟨e, he, rfl⟩)
      rw [weightAt, weightAt, lookup_insert, if_neg hne]
    have hrest := ih (m.insert k v) hn
    have hstep := weight_insert f m k v
    grind

end Weight

section Nested

variable {D K V : Type} [Ord D] [TransOrd D] [LawfulEqOrd D] [DecidableEq D] [Ord K] [TransOrd K]
  [LawfulEqOrd K] [DecidableEq K]

/-- The entry under two keys. -/
def find₂ (m : ExtTreeMap D (ExtTreeMap K V)) (d : D) (k : K) : Option V :=
  m[d]?.bind fun inner => inner[k]?

/-- Writes an entry under two keys. -/
def insert₂ (m : ExtTreeMap D (ExtTreeMap K V)) (d : D) (k : K) (v : V) :
    ExtTreeMap D (ExtTreeMap K V) :=
  m.insert d ((m.getD d ∅).insert k v)

/-- Writes all entries of one inner map. -/
def mergeAt (m : ExtTreeMap D (ExtTreeMap K V)) (e : D × ExtTreeMap K V) :
    ExtTreeMap D (ExtTreeMap K V) :=
  m.insert e.1 ((m.getD e.1 ∅).insertMany e.2.toList)

/-- Writes all entries of another map of maps. -/
def merge₂ (m upper : ExtTreeMap D (ExtTreeMap K V)) : ExtTreeMap D (ExtTreeMap K V) :=
  upper.toList.foldl mergeAt m

omit [LawfulEqOrd K] [DecidableEq K] [LawfulEqOrd D] [DecidableEq D] in
theorem find₂_getD (m : ExtTreeMap D (ExtTreeMap K V)) (d : D) (k : K) :
    find₂ m d k = (m.getD d ∅)[k]? := by
  rw [find₂, ExtTreeMap.getD_eq_getD_getElem?]
  cases m[d]? <;> simp

theorem find₂_insert₂ (m : ExtTreeMap D (ExtTreeMap K V)) (d a : D) (k b : K) (v : V) :
    find₂ (insert₂ m d k v) a b = if d = a ∧ k = b then some v else find₂ m a b := by
  by_cases hd : d = a
  · subst hd
    rw [find₂, insert₂, lookup_insert, if_pos rfl, Option.bind_some, lookup_insert, find₂_getD]
    simp
  · rw [find₂, insert₂, lookup_insert, if_neg hd, if_neg fun h => hd h.1, find₂]

theorem lookup_insertMany_toList (m upper : ExtTreeMap K V) (k : K) :
    (m.insertMany upper.toList)[k]? = upper[k]?.or m[k]? := by
  cases h : upper[k]? with
  | none =>
    refine lookup_insertMany_of_notMem ?_
    rw [ExtTreeMap.map_fst_toList_eq_keys, ExtTreeMap.mem_keys, notMem_iff_lookup, h]
  | some v => grind [lookup_insertMany_of_mem, nodup_toList_keys]

theorem find₂_mergeAt (m : ExtTreeMap D (ExtTreeMap K V)) (e : D × ExtTreeMap K V) (a : D) (b : K) :
    find₂ (mergeAt m e) a b = if e.1 = a then e.2[b]?.or (find₂ m a b) else find₂ m a b := by
  rw [mergeAt, find₂, lookup_insert]
  split_ifs with hd
  · rw [Option.bind_some, lookup_insertMany_toList, ← find₂_getD, hd]
  · rfl

theorem find₂_foldl_mergeAt {l : List (D × ExtTreeMap K V)} (m : ExtTreeMap D (ExtTreeMap K V))
    (hn : (l.map Prod.fst).Nodup) (a : D) (b : K) :
    find₂ (l.foldl mergeAt m) a b =
      ((l.find? fun e => e.1 = a).bind fun e => e.2[b]?).or (find₂ m a b) := by
  induction l generalizing m with
  | nil => simp
  | cons e l ih =>
    obtain ⟨hk, hn⟩ := List.nodup_cons.mp hn
    rw [List.foldl_cons, ih _ hn, find₂_mergeAt]
    grind

theorem find₂_merge₂ (m upper : ExtTreeMap D (ExtTreeMap K V)) (a : D) (b : K) :
    find₂ (merge₂ m upper) a b = (find₂ upper a b).or (find₂ m a b) := by
  have hfind : (upper.toList.find? fun e => e.1 = a) = upper[a]?.map (a, ·) := by
    cases h : upper[a]? with
    | none => grind
    | some inner =>
      have hmem := ExtTreeMap.mem_toList_iff_getElem?_eq_some.mpr h
      cases hfound : upper.toList.find? fun e => e.1 = a with
      | none => simpa using List.find?_eq_none.mp hfound _ hmem
      | some e => grind
  rw [merge₂, find₂_foldl_mergeAt m (nodup_toList_keys upper), hfind]
  unfold find₂
  cases upper[a]? <;> rfl

omit [DecidableEq D] [LawfulEqOrd K] [DecidableEq K] in
theorem mem_merge₂ {m upper : ExtTreeMap D (ExtTreeMap K V)} {d : D} (h : d ∈ merge₂ m upper) :
    d ∈ upper ∨ d ∈ m := by
  have hlist : ∀ (l : List (D × ExtTreeMap K V)) m, d ∈ l.foldl mergeAt m →
      d ∈ l.map Prod.fst ∨ d ∈ m := by
    intro l
    induction l with
    | nil => exact fun _ h => Or.inr h
    | cons e l ih =>
      intro m h
      rcases ih _ h with h | h
      · exact Or.inl (List.mem_cons_of_mem _ h)
      · rw [mergeAt, ExtTreeMap.mem_insert, LawfulEqOrd.compare_eq_iff_eq] at h
        grind
  rcases hlist _ _ h with h | h
  · simp_all
  · exact Or.inr h

variable (f : K → V → ℕ)

/-- The weight `f` summed over all entries of a map of maps. -/
def weight₂ (m : ExtTreeMap D (ExtTreeMap K V)) : ℕ := weight (fun _ inner => weight f inner) m

/-- The weight of the entry under two keys, nothing when there is none. -/
def weightAt₂ (m : ExtTreeMap D (ExtTreeMap K V)) (d : D) (k : K) : ℕ :=
  ((find₂ m d k).map (f k)).getD 0

/-- The weight of the entries that writing an inner map hides. -/
def hiddenBy (m : ExtTreeMap D (ExtTreeMap K V)) (e : D × ExtTreeMap K V) : ℕ :=
  (e.2.keys.map (weightAt₂ f m e.1)).sum

/-- The weight of the entries that a merge hides. -/
def hiddenWeight (m upper : ExtTreeMap D (ExtTreeMap K V)) : ℕ :=
  (upper.toList.map (hiddenBy f m)).sum

omit [LawfulEqOrd D] [DecidableEq D] [LawfulEqOrd K] [DecidableEq K] in
theorem weightAt₂_eq (m : ExtTreeMap D (ExtTreeMap K V)) (d : D) (k : K) :
    weightAt₂ f m d k = weightAt f (m.getD d ∅) k := by
  rw [weightAt₂, weightAt, find₂_getD]

omit [DecidableEq D] [LawfulEqOrd K] [DecidableEq K] in
theorem weight₂_insert (m : ExtTreeMap D (ExtTreeMap K V)) (d : D) (inner : ExtTreeMap K V) :
    weight₂ f (m.insert d inner) + weight f (m.getD d ∅) = weight₂ f m + weight f inner := by
  have h := weight_insert (fun _ inner => weight f inner) m d inner
  have hat : weightAt (fun _ inner => weight f inner) m d = weight f (m.getD d ∅) := by
    rw [weightAt, ExtTreeMap.getD_eq_getD_getElem?]
    cases m[d]? <;> rfl
  rwa [hat] at h

omit [DecidableEq D] [LawfulEqOrd K] [DecidableEq K] in
theorem weight_getD_le (m : ExtTreeMap D (ExtTreeMap K V)) (d : D) :
    weight f (m.getD d ∅) ≤ weight₂ f m := by
  have h := weight₂_insert f m d ∅
  rw [weight_empty] at h
  omega

omit [DecidableEq D] [DecidableEq K] in
theorem weightAt₂_le (m : ExtTreeMap D (ExtTreeMap K V)) (d : D) (k : K) :
    weightAt₂ f m d k ≤ weight₂ f m := by
  have hinner := weight_erase f (m.getD d ∅) k
  have houter := weight_getD_le f m d
  rw [weightAt₂_eq]
  omega

omit [DecidableEq D] [DecidableEq K] in
theorem weight₂_insert₂ (m : ExtTreeMap D (ExtTreeMap K V)) (d : D) (k : K) (v : V) :
    weight₂ f (insert₂ m d k v) + weightAt₂ f m d k = weight₂ f m + f k v := by
  have houter := weight₂_insert f m d ((m.getD d ∅).insert k v)
  grind [weight_insert, weightAt₂_eq, insert₂]

omit [DecidableEq D] in
theorem weight₂_mergeAt (m : ExtTreeMap D (ExtTreeMap K V)) (e : D × ExtTreeMap K V) :
    weight₂ f (mergeAt m e) + hiddenBy f m e = weight₂ f m + weight f e.2 := by
  have houter := weight₂_insert f m e.1 ((m.getD e.1 ∅).insertMany e.2.toList)
  have hinner := weight_insertMany f (m.getD e.1 ∅) (nodup_toList_keys e.2)
  have hhidden : hiddenBy f m e =
      (e.2.toList.map fun entry => weightAt f (m.getD e.1 ∅) entry.1).sum := by
    rw [hiddenBy, ← ExtTreeMap.map_fst_toList_eq_keys, List.map_map]
    simp only [Function.comp_def, weightAt₂_eq]
  rw [mergeAt, hhidden]
  unfold weight at *
  omega

theorem hiddenBy_mergeAt {m : ExtTreeMap D (ExtTreeMap K V)} {e e' : D × ExtTreeMap K V}
    (h : e.1 ≠ e'.1) : hiddenBy f (mergeAt m e) e' = hiddenBy f m e' := by
  refine congrArg List.sum (List.map_congr_left fun k _ => ?_)
  rw [weightAt₂, weightAt₂, find₂_mergeAt, if_neg h]

theorem weight₂_merge₂ (m upper : ExtTreeMap D (ExtTreeMap K V)) :
    weight₂ f (merge₂ m upper) + hiddenWeight f m upper = weight₂ f m + weight₂ f upper := by
  have hlist : ∀ l : List (D × ExtTreeMap K V), (l.map Prod.fst).Nodup → ∀ m,
      weight₂ f (l.foldl mergeAt m) + (l.map (hiddenBy f m)).sum =
      weight₂ f m + (l.map fun e => weight f e.2).sum := by
    intro l hn
    induction l with
    | nil => simp
    | cons e l ih =>
      intro m
      obtain ⟨hk, hn⟩ := List.nodup_cons.mp hn
      have hsame : l.map (hiddenBy f (mergeAt m e)) = l.map (hiddenBy f m) := by
        refine List.map_congr_left fun e' he' => hiddenBy_mergeAt f fun heq => hk ?_
        exact heq ▸ List.mem_map.mpr ⟨e', he', rfl⟩
      have hrest := ih hn (mergeAt m e)
      have hstep := weight₂_mergeAt f m e
      grind
  exact hlist upper.toList (nodup_toList_keys upper) m

end Nested

theorem foldlM_count {ε α : Type} {step : ℕ × ℕ → α → Except ε (ℕ × ℕ)} {g h : α → ℕ} {bound : ℕ}
    {l : List α} (hstep : ∀ count, ∀ a ∈ l, count.1 + g a < bound → count.2 + h a < bound →
      step count a = .ok (count.1 + g a, count.2 + h a)) (count : ℕ × ℕ)
    (hg : count.1 + (l.map g).sum < bound) (hh : count.2 + (l.map h).sum < bound) :
    l.foldlM step count = .ok (count.1 + (l.map g).sum, count.2 + (l.map h).sum) := by
  induction l generalizing count with
  | nil => rfl
  | cons a l ih =>
    rw [List.map_cons, List.sum_cons, ← Nat.add_assoc] at hg hh
    have hfirst := hstep count a (List.mem_cons_self ..) (by omega) (by omega)
    rw [List.foldlM_cons, hfirst, ok_bind,
      ih (fun count b hb => hstep count b (List.mem_cons_of_mem _ hb)) _ hg hh, List.map_cons,
      List.sum_cons, List.map_cons, List.sum_cons, Nat.add_assoc, Nat.add_assoc]

end Lib
