import Oregon.Lib.Graph

/-! The orders of a graph's nodes in which each comes after its parents. Of all of them, the one
that always takes the least ready node is the lexicographically smallest. -/

namespace Lib.Graph

open Std Relation

variable {K V : Type} [Ord K] [TransOrd K] {nodes : ExtTreeMap K V} {parents : V → ExtTreeSet K}
  {l l' : List K}

/-- Every node once, after all its parents. -/
structure LinearExtension (nodes : ExtTreeMap K V) (parents : V → ExtTreeSet K) (l : List K) :
    Prop where
  nodup : l.Nodup
  mem : ∀ k, k ∈ l ↔ k ∈ nodes
  parents : ∀ pre k post, l = pre ++ k :: post → ∀ p, Link nodes parents k p → p ∈ pre

theorem Greedy.linearExtension (h : Greedy nodes parents l) (hnodup : l.Nodup)
    (hmem : ∀ k, k ∈ l ↔ k ∈ nodes) : LinearExtension nodes parents l where
  nodup := hnodup
  mem := hmem
  parents pre k post heq := (h pre k post heq).1.2.2

namespace LinearExtension

theorem ready (h : LinearExtension nodes parents l) {pre post : List K} {k : K}
    (heq : l = pre ++ k :: post) : Ready nodes parents pre k := by
  have hnodup : (pre ++ k :: post).Nodup := heq ▸ h.nodup
  refine ⟨(h.mem k).mp (by simp [heq]), fun hk => ?_, h.parents pre k post heq⟩
  exact (List.nodup_append.mp hnodup).2.2 k hk k (List.mem_cons_self ..) rfl

theorem perm [LawfulEqOrd K] (h : LinearExtension nodes parents l)
    (h' : LinearExtension nodes parents l') : l.Perm l' :=
  (List.perm_ext_iff_of_nodup h.nodup h'.nodup).mpr fun k => by rw [h.mem, h'.mem]

/-- Two extensions that begin alike: where they part, the greedy one has the lesser node. -/
theorem greedy_rest [LawfulEqOrd K] (h : LinearExtension nodes parents l')
    (hl : Greedy nodes parents l) (pre : List K) {t t' : List K} (heq : l = pre ++ t) (heq' : l' = pre ++ t')
    (hlen : t.length = t'.length) : t = t' ∨ t.Lex (fun a b => compare a b = .lt) t' := by
  induction t generalizing pre t' with
  | nil => exact Or.inl (List.eq_nil_of_length_eq_zero hlen.symm).symm
  | cons a t ih =>
    obtain ⟨b, t', rfl⟩ := List.exists_cons_of_length_eq_add_one hlen.symm
    by_cases hab : a = b
    · subst hab
      have hrest := ih (pre ++ [a]) (by simpa using heq) (by simpa using heq')
        (Nat.succ.inj hlen)
      exact hrest.imp (congrArg _) .cons
    · have hle : compare a b ≠ .gt := (hl pre a t heq).2 b (h.ready heq')
      have hne : compare a b ≠ .eq := fun h => hab (LawfulEqOrd.compare_eq_iff_eq.mp h)
      refine Or.inr (.rel ?_)
      cases hcompare : compare a b with
      | lt => rfl
      | eq => exact absurd hcompare hne
      | gt => exact absurd hcompare hle

theorem greedy_le [LawfulEqOrd K] (h : LinearExtension nodes parents l)
    (hl : Greedy nodes parents l) (h' : LinearExtension nodes parents l') :
    l = l' ∨ l.Lex (fun a b => compare a b = .lt) l' :=
  h'.greedy_rest hl [] rfl rfl (h.perm h').length_eq

theorem idxOf_lt [DecidableEq K] (h : LinearExtension nodes parents l) {a b : K}
    (hlink : Link nodes parents a b) (ha : a ∈ nodes) : l.idxOf b < l.idxOf a := by
  obtain ⟨pre, post, heq⟩ := List.append_of_mem ((h.mem a).mpr ha)
  have hout : a ∉ pre := (h.ready heq).2.1
  have hb : b ∈ pre := h.parents pre a post heq b hlink
  grind

end LinearExtension

theorem exists_rank [LawfulEqOrd K] [DecidableEq K]
    (hclosed : ∀ a b, Link nodes parents a b → b ∈ nodes)
    (hacyclic : ∀ a, ¬ TransGen (Link nodes parents) a a) :
    ∃ rank : K → ℕ, ∀ a b, Link nodes parents a b → rank b < rank a := by
  refine ⟨fun a => {b | TransGen (Link nodes parents) a b}.ncard, fun a b hlink => ?_⟩
  have hfinite : {b | TransGen (Link nodes parents) a b}.Finite := by
    refine (nodes.keys.toFinset.finite_toSet).subset fun c hc => ?_
    obtain ⟨d, -, hlink⟩ := TransGen.tail'_iff.mp hc
    simpa using hclosed d c hlink
  refine Set.ncard_lt_ncard ⟨fun c hc => .head hlink hc, fun hsub => ?_⟩ hfinite
  exact hacyclic b (hsub (.single hlink))

end Lib.Graph
