import Oregon.Lib.Result

/-! Little-endian numbers, and readers of byte strings. `Reads` says what a reader
does on an encoding: it returns the encoded value and leaves the rest when a condition
holds, and fails when it does not. It composes along a sequence of readers and along a
counted repetition. -/

namespace Lib

/-- The `k` low bytes of `n`, least significant first. -/
def leBytes : ℕ → ℕ → List UInt8
  | 0, _ => []
  | k + 1, n => UInt8.ofNat (n % 256) :: leBytes k (n / 256)

/-- The number whose little-endian bytes are given. -/
def readLE : List UInt8 → ℕ
  | [] => 0
  | b :: bs => b.toNat + 256 * readLE bs

@[simp] theorem leBytes_length (k n : ℕ) : (leBytes k n).length = k := by
  induction k generalizing n with
  | zero => rfl
  | succ k ih => simp [leBytes, ih]

theorem readLE_leBytes (k n : ℕ) : readLE (leBytes k n) = n % 256 ^ k := by
  induction k generalizing n with
  | zero => simp [leBytes, readLE, Nat.mod_one]
  | succ k ih =>
    rw [leBytes, readLE, ih, UInt8.toNat_ofNat_of_lt' (Nat.mod_lt _ (by decide)), pow_succ',
      Nat.mod_mul]

theorem readLE_leBytes_of_lt {k n : ℕ} (h : n < 256 ^ k) : readLE (leBytes k n) = n := by
  rw [readLE_leBytes, Nat.mod_eq_of_lt h]

theorem readLE_lt (bs : List UInt8) : readLE bs < 256 ^ bs.length := by
  induction bs with
  | nil => simp [readLE]
  | cons b bs ih =>
    have hb := b.toNat_lt
    simp only [readLE, List.length_cons, pow_succ]
    omega

theorem readLE_append (bs bs' : List UInt8) :
    readLE (bs ++ bs') = readLE bs + 256 ^ bs.length * readLE bs' := by
  induction bs with
  | nil => simp [readLE]
  | cons b bs ih =>
    simp only [List.cons_append, readLE, ih, List.length_cons, pow_succ]
    ring

theorem leBytes_readLE (bs : List UInt8) : leBytes bs.length (readLE bs) = bs := by
  induction bs with
  | nil => rfl
  | cons b bs ih =>
    have hb := b.toNat_lt
    have hm : (b.toNat + 256 * readLE bs) % 256 = b.toNat := by omega
    have hd : (b.toNat + 256 * readLE bs) / 256 = readLE bs := by omega
    simp only [List.length_cons, leBytes, readLE, hm, hd, ih]
    simp

theorem leBytes_inj {k m n : ℕ} (hm : m < 256 ^ k) (hn : n < 256 ^ k)
    (h : leBytes k m = leBytes k n) : m = n := by
  rw [← readLE_leBytes_of_lt hm, h, readLE_leBytes_of_lt hn]

/-- What is left of an input, and how many bytes of it were consumed. -/
structure Cursor where
  rest : List UInt8
  offset : ℕ

/-- A reader consumes bytes from the front of its input or fails. -/
abbrev Reader (ε : Type) := StateT Cursor (Except ε)

variable {ε α β : Type}

/-- `p` `n` times over, the results in order. -/
def times : ℕ → Reader ε α → Reader ε (List α)
  | 0, _ => pure []
  | n + 1, p => do
    let a ← p
    let as ← times n p
    pure (a :: as)

/-- A reader that reports its errors as those of another kind. -/
def Reader.mapError {δ : Type} (f : ε → δ) (p : Reader ε α) : Reader δ α := fun c =>
  (p c).mapError f

/-- The result of a check, in the middle of reading. -/
def checked (x : Except ε α) : Reader ε α :=
  match x with
  | .ok a => pure a
  | .error e => throw e

/-- An optional value behind a flag. -/
def optional (byte : Reader ε UInt8) (invalid : UInt8 → ε) (p : Reader ε α) :
    Reader ε (Option α) := do
  let flag ← byte
  if flag = 0 then pure none
  else if flag = 1 then do
    let a ← p
    pure (some a)
  else throw (invalid flag)

def encodeOption (encode : α → List UInt8) : Option α → List UInt8
  | none => [0]
  | some a => 1 :: encode a

/-- On an input that starts with `bs` and does not pass `bound` bytes, `p` returns `x`
and the rest when `P` holds, and fails when it does not. -/
def Reads (bound : ℕ) (P : Prop) (p : Reader ε α) (x : α) (bs : List UInt8) : Prop :=
  ∀ rest off, off + bs.length < bound →
    (P → p ⟨bs ++ rest, off⟩ = .ok (x, ⟨rest, off + bs.length⟩)) ∧
    (¬ P → ∃ e, p ⟨bs ++ rest, off⟩ = .error e)

theorem Reads.pure {bound : ℕ} (a : α) : Reads bound True (pure a : Reader ε α) a [] :=
  fun _ _ _ => ⟨fun _ => rfl, fun h => absurd trivial h⟩

theorem Reads.congr {bound : ℕ} {P Q : Prop} {p : Reader ε α} {x : α} {bs : List UInt8}
    (h : Reads bound P p x bs) (hPQ : P ↔ Q) : Reads bound Q p x bs := by
  rwa [propext hPQ] at h

theorem Reads.bind {bound : ℕ} {P Q : Prop} {p : Reader ε α} {f : α → Reader ε β} {a : α} {b : β}
    {bs bs' : List UInt8} (hp : Reads bound P p a bs) (hf : P → Reads bound Q (f a) b bs') :
    Reads bound (P ∧ Q) (p >>= f) b (bs ++ bs') := by
  intro rest off hoff
  rw [List.length_append] at hoff
  obtain ⟨hok, herr⟩ := hp (bs' ++ rest) off (by omega)
  have hrun : (p >>= f) ⟨bs ++ bs' ++ rest, off⟩ =
      (p ⟨bs ++ (bs' ++ rest), off⟩ >>= fun r => f r.1 r.2) := by
    rw [List.append_assoc]
    rfl
  rw [hrun]
  by_cases hP : P
  · obtain ⟨hok', herr'⟩ := hf hP rest (off + bs.length) (by omega)
    grind [ok_bind]
  · obtain ⟨e, he⟩ := herr hP
    simp_all

/-- A reader without conditions, then another. -/
theorem Reads.bind_true {bound : ℕ} {Q : Prop} {p : Reader ε α} {f : α → Reader ε β} {a : α} {b : β}
    {bs bs' : List UInt8} (hp : Reads bound True p a bs) (hf : Reads bound Q (f a) b bs') :
    Reads bound Q (p >>= f) b (bs ++ bs') :=
  (hp.bind fun _ => hf).congr (iff_of_eq (true_and Q))

/-- A reader without conditions, then one that consumes nothing. -/
theorem Reads.bind_last {bound : ℕ} {Q : Prop} {p : Reader ε α} {f : α → Reader ε β} {a : α} {b : β}
    {bs : List UInt8} (hp : Reads bound True p a bs) (hf : Reads bound Q (f a) b []) :
    Reads bound Q (p >>= f) b bs :=
  List.append_nil bs ▸ hp.bind_true hf

theorem Reads.times {bound : ℕ} {p : Reader ε α} {enc : α → List UInt8} {P : α → Prop}
    (xs : List α) (h : ∀ x ∈ xs, Reads bound (P x) p x (enc x)) :
    Reads bound (∀ x ∈ xs, P x) (times xs.length p) xs (xs.flatMap enc) := by
  induction xs with
  | nil => exact (Reads.pure []).congr (by simp)
  | cons x xs ih =>
    have hx := h x (List.mem_cons_self ..)
    have hxs := ih fun y hy => h y (List.mem_cons_of_mem _ hy)
    have hcons := hx.bind (f := fun a => do let as ← Lib.times xs.length p; Pure.pure (a :: as))
      fun _ => hxs.bind fun _ => Reads.pure (x :: xs)
    rw [List.append_nil] at hcons
    exact hcons.congr (by simp)

theorem Reads.mapError {δ : Type} {bound : ℕ} {P : Prop} {p : Reader ε α} {a : α} {bs : List UInt8}
    (hp : Reads bound P p a bs) (f : ε → δ) : Reads bound P (p.mapError f) a bs := by
  intro rest off hoff
  obtain ⟨hok, herr⟩ := hp rest off hoff
  grind [Reader.mapError, mapError_ok, mapError_error]

theorem checked_reads {bound : ℕ} {x : Except ε α} {a : α} (h : x = .ok a) :
    Reads bound True (checked x) a [] := by
  rw [h]
  exact Reads.pure a

theorem optional_reads {bound : ℕ} {byte : Reader ε UInt8} {invalid : UInt8 → ε} {P : α → Prop}
    {p : Reader ε α} {enc : α → List UInt8} (hbyte : ∀ b, Reads bound True byte b [b])
    (hp : ∀ a, Reads bound (P a) p a (enc a)) (x : Option α) :
    Reads bound (∀ a ∈ x, P a) (optional byte invalid p) x (encodeOption enc x) := by
  cases x with
  | none => exact ((hbyte 0).bind_last (Reads.pure none)).congr (by simp)
  | some a =>
    have hsome : Reads bound (P a ∧ True) (do let a ← p; pure (some a)) (some a) (enc a ++ []) :=
      (hp a).bind fun _ => Reads.pure (some a)
    rw [List.append_nil] at hsome
    have hread : Reads bound (P a ∧ True) (optional byte invalid p) (some a) ([1] ++ enc a) :=
      (hbyte 1).bind_true hsome
    exact hread.congr (by simp)

/-- Two encodings that one reader reads are told apart by what they begin with. -/
theorem Reads.append_inj {bound : ℕ} {p : Reader ε α} {a b : α} {bs bs' r r' : List UInt8}
    (ha : Reads bound True p a bs) (hb : Reads bound True p b bs')
    (hlength : (bs ++ r).length < bound) (h : bs ++ r = bs' ++ r') :
    a = b ∧ r = r' ∧ r.length < bound := by
  have hlength' := hlength
  rw [h] at hlength'
  rw [List.length_append] at hlength hlength'
  have hread := (ha r 0 (by omega)).1 trivial
  rw [h, (hb r' 0 (by omega)).1 trivial, Except.ok.injEq, Prod.mk.injEq, Cursor.mk.injEq] at hread
  exact ⟨hread.1.symm, hread.2.1.symm, by omega⟩

theorem length_le_flatMap {enc : α → List UInt8} {xs : List α}
    (h : ∀ x ∈ xs, 0 < (enc x).length) : xs.length ≤ (xs.flatMap enc).length := by
  induction xs with
  | nil => simp
  | cons x xs ih => grind

theorem length_flatMap_le {enc : α → List UInt8} {xs : List α} {bound : ℕ}
    (h : ∀ x ∈ xs, (enc x).length ≤ bound) : (xs.flatMap enc).length ≤ xs.length * bound := by
  induction xs with
  | nil => simp
  | cons x xs ih =>
    have hx := h x (List.mem_cons_self ..)
    have := ih fun y hy => h y (List.mem_cons_of_mem _ hy)
    rw [List.flatMap_cons, List.length_append, List.length_cons, Nat.succ_mul]
    omega

/-- A sequence of readers that returned, taken apart. -/
theorem reader_bind_ok {p : Reader ε α} {f : α → Reader ε β} {c c' : Cursor} {b : β} :
    (p >>= f) c = .ok (b, c') ↔ ∃ a d, p c = .ok (a, d) ∧ f a d = .ok (b, c') := by
  change (p c >>= fun r => f r.1 r.2) = .ok (b, c') ↔ _
  simp

theorem reader_pure_ok {c c' : Cursor} {a b : α} :
    (pure a : Reader ε α) c = .ok (b, c') ↔ a = b ∧ c = c' := by
  change Except.ok (a, c) = .ok (b, c') ↔ _
  rw [Except.ok.injEq, Prod.mk.injEq]

theorem reader_throw_ok {c c' : Cursor} {e : ε} {b : α} :
    ¬ (throw e : Reader ε α) c = .ok (b, c') := by
  rintro ⟨⟩

theorem checked_ok {x : Except ε α} {a : α} {c c' : Cursor} :
    checked x c = .ok (a, c') ↔ x = .ok a ∧ c = c' := by
  cases x with
  | ok b => simp [checked, reader_pure_ok]
  | error e => simp [checked, reader_throw_ok]

/-- Whatever `p` returns, it has consumed the encoding of it. -/
def Consumes (p : Reader ε α) (enc : α → List UInt8) : Prop :=
  ∀ c x c', p c = .ok (x, c') → c.rest = enc x ++ c'.rest

theorem Consumes.mapError {δ : Type} {p : Reader ε α} {enc : α → List UInt8} (h : Consumes p enc)
    (f : ε → δ) : Consumes (p.mapError f) enc := by
  intro c x c' hrun
  rw [Reader.mapError, mapError_eq_ok] at hrun
  exact h c x c' hrun

theorem Consumes.optional {byte : Reader ε UInt8} {invalid : UInt8 → ε} {p : Reader ε α}
    {enc : α → List UInt8} (hbyte : Consumes byte fun b => [b]) (hp : Consumes p enc) :
    Consumes (optional byte invalid p) (encodeOption enc) := by
  intro c x c' h
  simp only [Lib.optional, reader_bind_ok] at h
  obtain ⟨flag, d, hflag, h⟩ := h
  have hfirst := hbyte _ _ _ hflag
  split_ifs at h with hzero hone
  · obtain ⟨rfl, rfl⟩ := reader_pure_ok.mp h
    rw [hfirst, hzero]
    rfl
  · simp only [reader_bind_ok, reader_pure_ok] at h
    obtain ⟨a, e, ha, rfl, rfl⟩ := h
    rw [hfirst, hone, hp _ _ _ ha]
    rfl
  · exact absurd h reader_throw_ok

theorem Consumes.times {p : Reader ε α} {enc : α → List UInt8} (h : Consumes p enc) (n : ℕ) :
    ∀ c xs c', Lib.times n p c = .ok (xs, c') →
      xs.length = n ∧ c.rest = xs.flatMap enc ++ c'.rest := by
  induction n with
  | zero =>
    intro c xs c' hrun
    obtain ⟨rfl, rfl⟩ := reader_pure_ok.mp hrun
    exact ⟨rfl, rfl⟩
  | succ n ih =>
    intro c xs c' hrun
    simp only [Lib.times, reader_bind_ok, reader_pure_ok] at hrun
    obtain ⟨x, d, hx, ys, d', hys, rfl, rfl⟩ := hrun
    obtain ⟨hlength, hrest⟩ := ih d ys d' hys
    refine ⟨by rw [List.length_cons, hlength], ?_⟩
    rw [h c x d hx, hrest, List.flatMap_cons, List.append_assoc]

end Lib
