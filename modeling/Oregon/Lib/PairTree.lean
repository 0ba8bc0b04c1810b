import Mathlib.Data.List.Basic

/-! Lists reduced by pairing neighbours, round after round, until one value is left. An
unpaired last value is promoted as it is. Whatever the pairing computes, the reduction
follows one binary tree, and the leaves of that tree are the list. -/

namespace Lib

variable {α β γ : Type}

/-- One round: neighbours are paired, a last unpaired value is promoted. -/
def pairUp (node : β → β → β) : List β → List β
  | left :: right :: rest => node left right :: pairUp node rest
  | [last] => [last]
  | [] => []

/-- Up to `n` rounds, until at most one value is left. -/
def pairRounds (node : β → β → β) : ℕ → List β → List β
  | 0, level => level
  | n + 1, level => if level.length > 1 then pairRounds node n (pairUp node level) else level

inductive PairTree (α : Type) where
  | leaf (a : α)
  | node (left right : PairTree α)

def PairTree.leaves : PairTree α → List α
  | leaf a => [a]
  | node left right => left.leaves ++ right.leaves

def PairTree.fold (leaf : α → β) (node : β → β → β) : PairTree α → β
  | .leaf a => leaf a
  | .node left right => node (left.fold leaf node) (right.fold leaf node)

/-- The rounds commute with a map that takes one pairing to the other. -/
theorem pairUp_map {f : β → γ} {node : β → β → β} {node' : γ → γ → γ}
    (h : ∀ a b, f (node a b) = node' (f a) (f b)) (level : List β) :
    pairUp node' (level.map f) = (pairUp node level).map f := by
  induction level using pairUp.induct with
  | case1 left right rest ih => simp only [List.map_cons, pairUp, h, ih]
  | case2 => rfl
  | case3 => rfl

theorem pairRounds_map {f : β → γ} {node : β → β → β} {node' : γ → γ → γ}
    (h : ∀ a b, f (node a b) = node' (f a) (f b)) (n : ℕ) (level : List β) :
    pairRounds node' n (level.map f) = (pairRounds node n level).map f := by
  induction n generalizing level with
  | zero => rfl
  | succ n ih =>
    simp only [pairRounds, List.length_map]
    split_ifs with hlength
    · rw [pairUp_map h, ih]
    · rfl

theorem pairUp_length (node : β → β → β) (level : List β) :
    (pairUp node level).length = (level.length + 1) / 2 := by
  induction level using pairUp.induct with
  | case1 left right rest ih =>
    simp only [pairUp, List.length_cons, ih]
    omega
  | case2 => simp [pairUp]
  | case3 => simp [pairUp]

/-- As many rounds as there are values leave one of them, or none of none. -/
theorem pairRounds_length (node : β → β → β) {n : ℕ} {level : List β}
    (hn : level.length ≤ n) (hne : level ≠ []) : (pairRounds node n level).length = 1 := by
  induction n generalizing level with
  | zero => exact absurd (List.length_eq_zero_iff.mp (Nat.le_zero.mp hn)) hne
  | succ n ih =>
    have hpos := List.length_pos_iff.mpr hne
    grind [pairUp_length, pairRounds]

theorem pairUp_leaves (level : List (PairTree α)) :
    (pairUp .node level).flatMap PairTree.leaves = level.flatMap PairTree.leaves := by
  induction level using pairUp.induct with
  | case1 left right rest ih =>
    simp only [pairUp, List.flatMap_cons, ih, PairTree.leaves, List.append_assoc]
  | case2 => rfl
  | case3 => rfl

theorem pairRounds_leaves (n : ℕ) (level : List (PairTree α)) :
    (pairRounds .node n level).flatMap PairTree.leaves = level.flatMap PairTree.leaves := by
  induction n generalizing level with
  | zero => rfl
  | succ n ih =>
    rw [pairRounds]
    split_ifs
    · rw [ih, pairUp_leaves]
    · rfl

/-- The pairs that one round puts together. -/
def neighbours : List β → List (β × β)
  | left :: right :: rest => (left, right) :: neighbours rest
  | _ => []

/-- The pairs that up to `n` rounds put together. -/
def roundPairs (node : β → β → β) : ℕ → List β → List (β × β)
  | 0, _ => []
  | n + 1, level =>
    if level.length > 1 then neighbours level ++ roundPairs node n (pairUp node level) else []

def PairTree.pairs (leaf : α → β) (node : β → β → β) : PairTree α → List (β × β)
  | .leaf _ => []
  | .node left right =>
    (left.fold leaf node, right.fold leaf node) :: (left.pairs leaf node ++ right.pairs leaf node)

section Fold

variable {leaf : α → β} {node : β → β → β}

theorem pairUp_fold (level : List (PairTree α)) :
    pairUp node (level.map (PairTree.fold leaf node)) =
      (pairUp .node level).map (PairTree.fold leaf node) :=
  pairUp_map (fun _ _ => rfl) level

theorem pairRounds_fold (n : ℕ) (level : List (PairTree α)) :
    pairRounds node n (level.map (PairTree.fold leaf node)) =
      (pairRounds .node n level).map (PairTree.fold leaf node) :=
  pairRounds_map (fun _ _ => rfl) n level

theorem pairUp_pairs {level : List (PairTree α)} {tree : PairTree α} {p : β × β}
    (htree : tree ∈ pairUp .node level) (hp : p ∈ tree.pairs leaf node) :
    p ∈ neighbours (level.map (PairTree.fold leaf node)) ∨
      ∃ t ∈ level, p ∈ t.pairs leaf node := by
  induction level using pairUp.induct with
  | case1 left right rest ih =>
    simp only [pairUp, List.mem_cons] at htree
    rcases htree with rfl | htree
    · simp only [PairTree.pairs, List.mem_cons, List.mem_append] at hp
      rcases hp with rfl | hp | hp
      · exact .inl (List.mem_cons_self ..)
      · exact .inr ⟨left, by simp, hp⟩
      · exact .inr ⟨right, by simp, hp⟩
    · rcases ih htree with h | ⟨t, ht, h⟩
      · exact .inl (List.mem_cons_of_mem _ h)
      · exact .inr ⟨t, by simp [ht], h⟩
  | case2 last => exact .inr ⟨tree, htree, hp⟩
  | case3 => exact absurd htree List.not_mem_nil

theorem pairRounds_pairs {n : ℕ} {level : List (PairTree α)} {tree : PairTree α} {p : β × β}
    (htree : tree ∈ pairRounds .node n level) (hp : p ∈ tree.pairs leaf node) :
    p ∈ roundPairs node n (level.map (PairTree.fold leaf node)) ∨
      ∃ t ∈ level, p ∈ t.pairs leaf node := by
  induction n generalizing level with
  | zero => exact .inr ⟨tree, htree, hp⟩
  | succ n ih =>
    rw [pairRounds] at htree
    simp only [roundPairs, List.length_map]
    split_ifs at htree ⊢ with hlength
    · rw [pairUp_fold, List.mem_append]
      grind [pairUp_pairs]
    · exact .inr ⟨tree, htree, hp⟩

/-- A fold whose leaves and pairings are told apart by their values determines the tree. -/
theorem PairTree.fold_inj {t t' : PairTree α}
    (hleaf : ∀ a ∈ t.leaves, ∀ b ∈ t'.leaves, leaf a = leaf b → a = b)
    (hnode : ∀ p ∈ t.pairs leaf node, ∀ q ∈ t'.pairs leaf node,
      node p.1 p.2 = node q.1 q.2 → p = q)
    (hapart : ∀ a ∈ t.leaves, ∀ q ∈ t'.pairs leaf node, leaf a ≠ node q.1 q.2)
    (hapart' : ∀ a ∈ t'.leaves, ∀ p ∈ t.pairs leaf node, leaf a ≠ node p.1 p.2)
    (h : t.fold leaf node = t'.fold leaf node) : t = t' := by
  induction t generalizing t' with
  | leaf a =>
    cases t' with
    | leaf b => rw [hleaf a (by simp [leaves]) b (by simp [leaves]) h]
    | node left right => exact absurd h (hapart a (by simp [leaves]) _ (List.mem_cons_self ..))
  | node left right ihl ihr =>
    cases t' with
    | leaf b => exact absurd h.symm (hapart' b (by simp [leaves]) _ (List.mem_cons_self ..))
    | node left' right' =>
      have hpair := hnode _ (List.mem_cons_self ..) _ (List.mem_cons_self ..) h
      simp only [Prod.mk.injEq] at hpair
      simp only [leaves, pairs, List.mem_append, List.mem_cons] at hleaf hnode hapart hapart'
      have hl : left = left' := ihl (fun a ha b hb => hleaf a (.inl ha) b (.inl hb))
        (fun p hp q hq => hnode p (.inr (.inl hp)) q (.inr (.inl hq)))
        (fun a ha q hq => hapart a (.inl ha) q (.inr (.inl hq)))
        (fun a ha p hp => hapart' a (.inl ha) p (.inr (.inl hp))) hpair.1
      have hr : right = right' := ihr (fun a ha b hb => hleaf a (.inr ha) b (.inr hb))
        (fun p hp q hq => hnode p (.inr (.inr hp)) q (.inr (.inr hq)))
        (fun a ha q hq => hapart a (.inr ha) q (.inr (.inr hq)))
        (fun a ha p hp => hapart' a (.inr ha) p (.inr (.inr hp))) hpair.2
      rw [hl, hr]

end Fold

theorem exists_pairTree {xs : List α} (hne : xs ≠ []) (leaf : α → β) (node : β → β → β) :
    ∃ tree : PairTree α, tree.leaves = xs ∧
      pairRounds node xs.length (xs.map leaf) = [tree.fold leaf node] ∧
      ∀ p ∈ tree.pairs leaf node, p ∈ roundPairs node xs.length (xs.map leaf) := by
  have hfold : xs.map leaf = (xs.map PairTree.leaf).map (PairTree.fold leaf node) := by
    rw [List.map_map]
    rfl
  have hlength : (pairRounds .node xs.length (xs.map PairTree.leaf)).length = 1 :=
    pairRounds_length _ (Nat.le_of_eq (List.length_map ..)) (by simpa using hne)
  obtain ⟨tree, htree⟩ := List.length_eq_one_iff.mp hlength
  refine ⟨tree, ?_, ?_, fun p hp => ?_⟩
  · have hleaves := pairRounds_leaves xs.length (xs.map PairTree.leaf)
    rw [htree, List.flatMap_map] at hleaves
    simpa [PairTree.leaves] using hleaves
  · rw [hfold, pairRounds_fold, htree]
    rfl
  · have hmem : tree ∈ pairRounds .node xs.length (xs.map PairTree.leaf) := by
      rw [htree]
      exact List.mem_cons_self ..
    rw [hfold]
    rcases pairRounds_pairs hmem hp with h | ⟨t, ht, h⟩
    · exact h
    · obtain ⟨a, -, rfl⟩ := List.mem_map.mp ht
      exact absurd h List.not_mem_nil

end Lib
