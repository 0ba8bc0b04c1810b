import Mathlib.Tactic

/-! Fallible computations in `Except`: how a sequence of checks is taken apart
once it is known to have returned, and what a fold of fallible steps preserves. -/

namespace Lib

variable {ε α β σ : Type}

/-- A check: `ensure p e` returns when `p` holds and fails with `e` otherwise. -/
def ensure (p : Prop) [Decidable p] (e : ε) : Except ε Unit :=
  if p then .ok () else .error e

@[simp] theorem ensure_eq_ok {p : Prop} [Decidable p] {e : ε} {u : Unit} :
    ensure p e = .ok u ↔ p := by
  unfold ensure
  split_ifs with h <;> simp [h]

@[simp] theorem ensure_eq_error {p : Prop} [Decidable p] {e e' : ε} :
    ensure p e = .error e' ↔ ¬ p ∧ e = e' := by
  unfold ensure
  split_ifs with h <;> simp [h]

theorem ensure_ok {p : Prop} [Decidable p] {e : ε} (h : p) : ensure p e = .ok () := if_pos h

theorem ensure_error {p : Prop} [Decidable p] {e : ε} (h : ¬ p) : ensure p e = .error e := if_neg h

/-- The value of an optional result, or the error that reports its absence. -/
def orElse (x : Option α) (e : ε) : Except ε α :=
  match x with
  | some a => .ok a
  | none => .error e

@[simp] theorem orElse_some (a : α) (e : ε) : orElse (some a) e = .ok a := rfl

@[simp] theorem orElse_none (e : ε) : orElse (none : Option α) e = .error e := rfl

@[simp] theorem orElse_eq_ok {x : Option α} {e : ε} {a : α} :
    orElse x e = .ok a ↔ x = some a := by
  cases x <;> simp [orElse]

@[simp] theorem orElse_eq_error {x : Option α} {e e' : ε} :
    orElse x e = .error e' ↔ x = none ∧ e = e' := by
  cases x <;> simp [orElse]

@[simp] theorem bind_eq_ok {x : Except ε α} {f : α → Except ε β} {b : β} :
    x >>= f = .ok b ↔ ∃ a, x = .ok a ∧ f a = .ok b := by
  cases x <;> simp [bind, Except.bind]

@[simp] theorem bind_eq_error {x : Except ε α} {f : α → Except ε β} {e : ε} :
    x >>= f = .error e ↔ x = .error e ∨ ∃ a, x = .ok a ∧ f a = .error e := by
  cases x <;> simp [bind, Except.bind]

theorem exists_unit {p : Unit → Prop} : (∃ u, p u) ↔ p () := by
  grind

theorem pure_eq_ok {a b : α} : (pure a : Except ε α) = .ok b ↔ a = b := by
  simp [pure, Except.pure]

theorem ok_bind (a : α) (f : α → Except ε β) : (Except.ok a >>= f) = f a := rfl

theorem error_bind (e : ε) (f : α → Except ε β) : (Except.error e >>= f) = .error e := rfl

@[simp] theorem mapError_eq_ok {ε' : Type} {x : Except ε α} {f : ε → ε'} {a : α} :
    x.mapError f = .ok a ↔ x = .ok a := by
  cases x <;> simp [Except.mapError]

@[simp] theorem mapError_ok {ε' : Type} {f : ε → ε'} {a : α} :
    (Except.ok a : Except ε α).mapError f = .ok a := rfl

@[simp] theorem mapError_error {ε' : Type} {f : ε → ε'} {e : ε} :
    (Except.error e : Except ε α).mapError f = .error (f e) := rfl

@[simp] theorem mapError_eq_error {ε' : Type} {x : Except ε α} {f : ε → ε'} {e : ε'} :
    x.mapError f = .error e ↔ ∃ e', x = .error e' ∧ f e' = e := by
  cases x <;> simp [Except.mapError]

theorem map_eq_ok {x : Except ε α} {f : α → β} {b : β} :
    x.map f = .ok b ↔ ∃ a, x = .ok a ∧ f a = b := by
  cases x <;> simp [Except.map]

@[simp] theorem throw_eq_error {e e' : ε} : (throw e : Except ε α) = .error e' ↔ e = e' := by
  simp [throw, throwThe, MonadExceptOf.throw]

@[simp] theorem throw_ne_ok {e : ε} {a : α} : (throw e : Except ε α) = .ok a ↔ False := by
  simp [throw, throwThe, MonadExceptOf.throw]

theorem forall₂_mem_left {R : α → β → Prop} {l : List α} {l' : List β} (h : List.Forall₂ R l l')
    {b : β} (hb : b ∈ l') : ∃ a ∈ l, R a b := by
  induction h with
  | nil => cases hb
  | cons hab _ ih => grind

theorem mapM_eq_ok {f : α → Except ε β} {l : List α} {l' : List β} :
    l.mapM f = .ok l' ↔ List.Forall₂ (fun a b => f a = .ok b) l l' := by
  induction l generalizing l' with
  | nil => rw [List.mapM_nil, pure_eq_ok, List.forall₂_nil_left_iff, eq_comm]
  | cons a l ih =>
    simp only [List.mapM_cons, bind_eq_ok, pure_eq_ok, List.forall₂_cons_left_iff, ih]
    grind

theorem mapM_eq_map {f : α → Except ε β} {g : α → β} {l : List α}
    (h : ∀ a ∈ l, f a = .ok (g a)) : l.mapM f = .ok (l.map g) := by
  rw [mapM_eq_ok, List.forall₂_map_right_iff, List.forall₂_same]
  exact h

/-- When `f` returns only `g a`, and only if `P a`, so does mapping it. -/
theorem mapM_ok_spec {f : α → Except ε β} {g : α → β} {P : α → Prop} {l : List α} {l' : List β}
    (hf : ∀ a b, f a = .ok b → P a ∧ b = g a) (h : l.mapM f = .ok l') :
    l' = l.map g ∧ ∀ a ∈ l, P a := by
  rw [mapM_eq_ok] at h
  induction h with
  | nil => simp
  | cons hab _ ih => grind

/-- When the argument can be read off the result, so can the whole list. -/
theorem mapM_ok_inverse {f : α → Except ε β} {g : β → α} {l : List α} {l' : List β}
    (hg : ∀ a b, f a = .ok b → g b = a) (h : l.mapM f = .ok l') :
    l'.map g = l ∧ ∀ b ∈ l', f (g b) = .ok b := by
  rw [mapM_eq_ok] at h
  induction h with
  | nil => simp
  | cons hab _ ih => grind

theorem mapM_eq_error {f : α → Except ε β} {l : List α} {e : ε} (h : l.mapM f = .error e) :
    ∃ a ∈ l, f a = .error e := by
  induction l with
  | nil => simp [pure, Except.pure] at h
  | cons a l ih =>
    simp only [List.mapM_cons, bind_eq_error, pure, Except.pure, reduceCtorEq, and_false,
      exists_false, or_false] at h
    grind

theorem forM_eq_ok {f : α → Except ε Unit} {l : List α} {u : Unit} :
    l.forM f = .ok u ↔ ∀ a ∈ l, f a = .ok u := by
  induction l with
  | nil => simp [pure, Except.pure]
  | cons a l ih =>
    change (f a >>= fun _ => l.forM f) = .ok u ↔ _
    simp only [bind_eq_ok, ih, List.forall_mem_cons]
    grind

theorem forM_eq_error {f : α → Except ε Unit} {l : List α} {e : ε} (h : l.forM f = .error e) :
    ∃ a ∈ l, f a = .error e := by
  induction l with
  | nil => simp [pure, Except.pure] at h
  | cons a l ih =>
    change (f a >>= fun _ => l.forM f) = .error e at h
    grind [bind_eq_error]

theorem foldlM_eq_error {f : σ → α → Except ε σ} {l : List α} {s : σ} {e : ε}
    (h : l.foldlM f s = .error e) : ∃ t, ∃ a ∈ l, f t a = .error e := by
  induction l generalizing s with
  | nil => simp [pure, Except.pure] at h
  | cons a l ih =>
    rw [List.foldlM_cons, bind_eq_error] at h
    grind

/-- Every error of `x` satisfies `P`. -/
def FailsIn (P : ε → Prop) (x : Except ε α) : Prop := ∀ e, x = .error e → P e

namespace FailsIn

variable {P : ε → Prop}

theorem ok (a : α) : FailsIn P (.ok a) := fun _ h => by cases h

theorem error {e : ε} (h : P e) : FailsIn P (.error e : Except ε α) := fun _ he =>
  Except.error.inj he ▸ h

theorem bind {x : Except ε α} {f : α → Except ε β} (hx : FailsIn P x) (hf : ∀ a, FailsIn P (f a)) :
    FailsIn P (x >>= f) := by
  intro e he
  rcases bind_eq_error.mp he with he | ⟨a, -, he⟩
  · exact hx e he
  · exact hf a e he

/-- What follows may use that the first part returned. -/
theorem bind_ok {x : Except ε α} {f : α → Except ε β} (hx : FailsIn P x)
    (hf : ∀ a, x = .ok a → FailsIn P (f a)) : FailsIn P (x >>= f) := by
  intro e he
  rcases bind_eq_error.mp he with he | ⟨a, ha, he⟩
  · exact hx e he
  · exact hf a ha e he

theorem ensure {p : Prop} [Decidable p] {e : ε} (h : P e) : FailsIn P (Lib.ensure p e) :=
  fun _ he => (ensure_eq_error.mp he).2 ▸ h

theorem orElse {x : Option α} {e : ε} (h : P e) : FailsIn P (Lib.orElse x e) :=
  fun _ he => (orElse_eq_error.mp he).2 ▸ h

theorem mapError {ε' : Type} {x : Except ε' α} {f : ε' → ε} (h : ∀ e, P (f e)) :
    FailsIn P (x.mapError f) := by
  intro _ he
  obtain ⟨e, -, rfl⟩ := mapError_eq_error.mp he
  exact h e

theorem mono {Q : ε → Prop} {x : Except ε α} (hx : FailsIn P x) (h : ∀ e, P e → Q e) :
    FailsIn Q x := fun e he => h e (hx e he)

end FailsIn

end Lib
