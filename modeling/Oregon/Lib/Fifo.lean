import Mathlib.Data.List.Basic
import Mathlib.Tactic

/-! A queue of bounded length that takes each element once: it holds the last elements that
were put into it, and an element only comes back after as many others as the queue can hold. -/

namespace Lib

variable {α : Type} {k : ℕ} {l m : List α} {a : α}

/-- The last elements of a list, at most `k` of them. -/
def recent (k : ℕ) (l : List α) : List α := l.drop (l.length - k)

theorem length_recent (k : ℕ) (l : List α) : (recent k l).length = min k l.length := by
  rw [recent, List.length_drop]
  omega

theorem recent_snoc_of_lt (h : l.length < k) : recent k (l ++ [a]) = recent k l ++ [a] := by
  grind [recent]

theorem recent_snoc_of_le (hk : 0 < k) (h : k ≤ l.length) :
    recent k (l ++ [a]) = (recent k l).tail ++ [a] := by
  have hlength : (l ++ [a]).length - k = l.length - k + 1 := by grind
  rw [recent, recent, hlength, List.tail_drop, List.drop_append_of_le_length (by omega)]

theorem mem_recent_of_mem_suffix (h : m.length ≤ k) (ha : a ∈ m) : a ∈ recent k (l ++ m) := by
  grind [recent]

/-- Each element was not in the queue when it was put into it. -/
inductive Fresh (k : ℕ) : List α → Prop
  | nil : Fresh k []
  | snoc {l : List α} {a : α} (h : Fresh k l) (ha : a ∉ recent k l) : Fresh k (l ++ [a])

theorem Fresh.notMem_recent (h : Fresh k (l ++ [a])) : a ∉ recent k l := by
  generalize hl : l ++ [a] = l' at h
  cases h with
  | nil => exact absurd hl (by simp)
  | snoc _ ha => simp_all

theorem Fresh.of_append (h : Fresh k (l ++ m)) : Fresh k l := by
  induction m using List.reverseRecOn with
  | nil => rwa [List.append_nil] at h
  | append_singleton m b ih =>
    refine ih ?_
    rw [← List.append_assoc] at h
    generalize hl : l ++ m ++ [b] = l' at h
    cases h with
    | nil => exact absurd hl (by simp)
    | snoc h _ =>
      obtain ⟨heq, -⟩ := List.append_inj' hl rfl
      rwa [heq]

theorem Fresh.nodup_recent (hk : 0 < k) (h : Fresh k l) : (recent k l).Nodup := by
  induction h with
  | nil => simp [recent]
  | @snoc l a _ ha ih =>
    obtain hlt | hle := Nat.lt_or_ge l.length k
    · grind [recent_snoc_of_lt]
    · rw [recent_snoc_of_le hk hle, List.nodup_append]
      grind [List.mem_of_mem_tail]

/-- What follows an element while it is in the queue is new, one after the other. -/
theorem Fresh.nodup_take (h : Fresh k (l ++ a :: m)) {j : ℕ} (hj : j ≤ k) :
    (a :: m.take j).Nodup := by
  induction j with
  | zero => simp
  | succ j ih =>
    specialize ih (by omega)
    by_cases hlength : j < m.length
    · have hsplit : m.take (j + 1) = m.take j ++ [m[j]] := List.take_succ_eq_append_getElem hlength
      have hnew : m[j] ∉ a :: m.take j := by
        have hfresh : Fresh k (l ++ a :: m.take j ++ [m[j]]) := by
          have hback : l ++ a :: m.take j ++ [m[j]] ++ m.drop (j + 1) = l ++ a :: m := by simp
          exact Fresh.of_append (hback ▸ h)
        intro hmem
        refine hfresh.notMem_recent (mem_recent_of_mem_suffix ?_ hmem)
        simp_all
      grind
    · rwa [List.take_of_length_le (by omega)] at ih ⊢

/-- Between two times that an element is put into the queue, as many different others are as
the queue holds. -/
theorem Fresh.spaced (h : Fresh k (l ++ a :: m ++ [a])) :
    k ≤ m.length ∧ (m.take k).Nodup ∧ a ∉ m.take k := by
  have hgone : a ∉ recent k (l ++ a :: m) := h.notMem_recent
  have hnodup := List.nodup_cons.mp (h.of_append.nodup_take le_rfl)
  refine ⟨?_, hnodup.2, hnodup.1⟩
  by_contra hshort
  exact hgone (mem_recent_of_mem_suffix (by rw [List.length_cons]; omega) List.mem_cons_self)

end Lib
