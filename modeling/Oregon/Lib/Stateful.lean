import Oregon.Lib.Result

/-! Computations on a state that may fail. The state that a computation has reached stays
when it fails, so what holds of every outcome is proved of both: a relation between the
first and the last state follows the structure of the computation. -/

namespace Lib

variable {σ τ ε δ α β : Type}

/-- A computation on a state that returns or fails, and leaves a state either way. -/
abbrev Stateful (σ ε : Type) : Type → Type := ExceptT ε (StateM σ)

/-- How a computation ends, and the state that it leaves. -/
def perform (x : Stateful σ ε α) (s : σ) : Except ε α × σ := x.run.run s

/-- A result that leaves the state alone. -/
def check (x : Except ε α) : Stateful σ ε α := ExceptT.mk (pure x)

/-- Replaces the state, unless that fails. -/
def update (f : σ → Except ε σ) : Stateful σ ε Unit :=
  ExceptT.mk (modifyGet fun s => match f s with
    | .ok t => (.ok (), t)
    | .error e => (.error e, s))

/-- Performs a computation on a part of the state, and returns how it ended. -/
def within (part : σ → τ) (put : σ → τ → σ) (x : Stateful τ δ α) : Stateful σ ε (Except δ α) :=
  ExceptT.mk (modifyGet fun s => (.ok (perform x (part s)).1, put s (perform x (part s)).2))

/-- Performs a computation, and returns how it ended. -/
def attempt (x : Stateful σ δ α) : Stateful σ ε (Except δ α) := within id (fun _ t => t) x

/-- Performs a computation on a copy of the state, which is dropped when it fails. -/
def staged (x : Stateful σ ε α) (s : σ) : Except ε (α × σ) :=
  match perform x s with
  | (.ok a, t) => .ok (a, t)
  | (.error e, _) => .error e

section

variable (s : σ)

@[simp] theorem perform_pure (a : α) : perform (pure a : Stateful σ ε α) s = (.ok a, s) := rfl

@[simp] theorem perform_throw (e : ε) : perform (throw e : Stateful σ ε α) s = (.error e, s) := rfl

@[simp] theorem perform_get : perform (get : Stateful σ ε σ) s = (.ok s, s) := rfl

@[simp] theorem perform_modify (f : σ → σ) :
    perform (modify f : Stateful σ ε PUnit) s = (.ok (), f s) := rfl

@[simp] theorem perform_check (x : Except ε α) : perform (check x : Stateful σ ε α) s = (x, s) := rfl

@[simp] theorem perform_within (part : σ → τ) (put : σ → τ → σ) (x : Stateful τ δ α) :
    perform (within part put x : Stateful σ ε (Except δ α)) s =
      (.ok (perform x (part s)).1, put s (perform x (part s)).2) := rfl

@[simp] theorem perform_attempt (x : Stateful σ δ α) :
    perform (attempt x : Stateful σ ε (Except δ α)) s = (.ok (perform x s).1, (perform x s).2) := rfl

theorem perform_update (f : σ → Except ε σ) :
    perform (update f) s = match f s with
      | .ok t => (.ok (), t)
      | .error e => (.error e, s) := rfl

theorem perform_bind (x : Stateful σ ε α) (f : α → Stateful σ ε β) :
    perform (x >>= f) s = match perform x s with
      | (.ok a, t) => perform (f a) t
      | (.error e, t) => (.error e, t) := by
  simp only [perform, ExceptT.run_bind, StateT.run_bind]
  cases x.run.run s with
  | mk r t => cases r <;> rfl

section

variable {s} {t : σ} {x : Stateful σ ε α} {f : α → Stateful σ ε β} {a : α} {e : ε}

theorem perform_bind_ok (h : perform x s = (.ok a, t)) : perform (x >>= f) s = perform (f a) t := by
  rw [perform_bind, h]

theorem perform_bind_error (h : perform x s = (.error e, t)) :
    perform (x >>= f) s = (.error e, t) := by
  rw [perform_bind, h]

theorem perform_bind_eq_ok {b : β} {u : σ} : perform (x >>= f) s = (.ok b, u) ↔
    ∃ a t, perform x s = (.ok a, t) ∧ perform (f a) t = (.ok b, u) := by
  rw [perform_bind]
  cases perform x s with
  | mk r t => cases r <;> simp

theorem staged_eq_ok : staged x s = .ok (a, t) ↔ perform x s = (.ok a, t) := by
  rw [staged]
  cases perform x s with
  | mk r u => cases r <;> simp

@[simp] theorem perform_check_ok : perform (check (.ok a) >>= f) s = perform (f a) s :=
  perform_bind_ok rfl

@[simp] theorem perform_check_error : perform (check (.error e) >>= f) s = (.error e, s) :=
  perform_bind_error rfl

theorem perform_check_eq_ok {x : Except ε α} {b : β} :
    perform (check x >>= f) s = (.ok b, t) ↔ ∃ a, x = .ok a ∧ perform (f a) s = (.ok b, t) := by
  cases x <;> simp

theorem perform_check_eq_error {x : Except ε α} :
    perform (check x >>= f) s = (.error e, t) ↔
      (x = .error e ∧ s = t) ∨ ∃ a, x = .ok a ∧ perform (f a) s = (.error e, t) := by
  cases x <;> simp

@[simp] theorem perform_get_bind {f : σ → Stateful σ ε β} :
    perform (get >>= f) s = perform (f s) s :=
  perform_bind_ok rfl

theorem perform_update_ok {f : σ → Except ε σ} (h : f s = .ok t) :
    perform (update f) s = (.ok (), t) := by
  rw [perform_update, h]

theorem perform_update_error {f : σ → Except ε σ} (h : f s = .error e) :
    perform (update f) s = (.error e, s) := by
  rw [perform_update, h]

end

end

/-- Every outcome of a computation is related to the state it started in. -/
def Ensures (x : Stateful σ ε α) (R : σ → Except ε α → σ → Prop) : Prop :=
  ∀ s, R s (perform x s).1 (perform x s).2

section

variable {x : Stateful σ ε α} {f : α → Stateful σ ε β}

theorem Ensures.bind {P : σ → Except ε α → σ → Prop} {Q : α → σ → Except ε β → σ → Prop}
    {T : σ → Except ε β → σ → Prop} (hx : Ensures x P) (hf : ∀ a, Ensures (f a) (Q a))
    (herror : ∀ s e t, P s (.error e) t → T s (.error e) t)
    (hok : ∀ s a t r u, P s (.ok a) t → Q a t r u → T s r u) : Ensures (x >>= f) T := by
  intro s
  have hs := hx s
  rw [perform_bind]
  cases hperform : perform x s with
  | mk r t =>
    rw [hperform] at hs
    cases r with
    | ok a => exact hok s a t _ _ hs (hf a t)
    | error e => exact herror s e t hs

/-- A computation that only takes steps of `R`, however it ends. -/
def Follows (R : σ → σ → Prop) (x : Stateful σ ε α) : Prop := Ensures x fun s _ t => R s t

/-- A relation to the outcomes of a computation that steps of `R` may come before. -/
structure Absorbs (R : σ → σ → Prop) (T : σ → Except ε β → σ → Prop) : Prop where
  refl : ∀ s, R s s
  error : ∀ s e t, R s t → T s (.error e) t
  after : ∀ s t r u, R s t → T t r u → T s r u

variable {R : σ → σ → Prop} {T : σ → Except ε β → σ → Prop}

theorem Absorbs.bind (h : Absorbs R T) (hx : Follows R x) (hf : ∀ a, Ensures (f a) T) :
    Ensures (x >>= f) T :=
  hx.bind hf (fun s e t => h.error s e t) fun s _ t r u => h.after s t r u

theorem Absorbs.check (h : Absorbs R T) {r : Except ε α} (hf : ∀ a, r = .ok a → Ensures (f a) T) :
    Ensures (check r >>= f) T := by
  intro s
  cases r with
  | ok a => exact hf a rfl s
  | error e => exact h.error s e s (h.refl s)

/-- Errors of a sequence are errors of its parts. -/
theorem Ensures.bind_failsIn {P : ε → Prop} (hx : Ensures x fun _ r _ => FailsIn P r)
    (hf : ∀ a, Ensures (f a) fun _ r _ => FailsIn P r) :
    Ensures (x >>= f) fun _ r _ => FailsIn P r :=
  hx.bind hf (fun _ e _ h => .error (h e rfl)) fun _ _ _ _ _ _ h => h

theorem Ensures.get {f : σ → Stateful σ ε β} (hf : ∀ s, T s (perform (f s) s).1 (perform (f s) s).2) :
    Ensures (MonadState.get >>= f) T := by
  intro s
  exact hf s

end

end Lib
