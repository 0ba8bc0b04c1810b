import Oregon.Lib.Result

/-! A loop that ends itself: each round goes on with another state, ends the loop with a value
or fails. It gets a number of rounds; a measure that falls in every round says when that
number is enough. -/

namespace Lib

variable {σ ε α : Type}

/-- At most `fuel` rounds of a loop; `spent` is for a loop that needs more. -/
def loop (round : σ → Except ε (σ ⊕ α)) (spent : ε) : ℕ → σ → Except ε α
  | 0, _ => .error spent
  | fuel + 1, s => do
    match ← round s with
    | .inl s => loop round spent fuel s
    | .inr a => pure a

section

variable {round : σ → Except ε (σ ⊕ α)} {spent : ε} {fuel : ℕ} {s s' : σ}

theorem loop_go (h : round s = .ok (.inl s')) :
    loop round spent (fuel + 1) s = loop round spent fuel s' := by
  rw [loop, h]
  rfl

theorem loop_end {a : α} (h : round s = .ok (.inr a)) : loop round spent (fuel + 1) s = .ok a := by
  rw [loop, h]
  rfl

theorem loop_fail {e : ε} (h : round s = .error e) : loop round spent (fuel + 1) s = .error e := by
  rw [loop, h]
  rfl

/-- A loop whose rounds keep `P` and lower `μ` has an outcome that the last round gave it. -/
theorem loop_rule {P : σ → Prop} {R : Except ε α → Prop} (μ : σ → ℕ)
    (hround : ∀ s, P s → (∃ s', round s = .ok (.inl s') ∧ P s' ∧ μ s' < μ s) ∨
      (∃ a, round s = .ok (.inr a) ∧ R (.ok a)) ∨ ∃ e, round s = .error e ∧ R (.error e))
    (hs : P s) (hfuel : μ s < fuel) : R (loop round spent fuel s) := by
  induction fuel generalizing s with
  | zero => omega
  | succ fuel ih => grind [loop_go, loop_end, loop_fail]

end

end Lib
