import Mathlib.Data.Set.Function
import Mathlib.Tactic

/-! Merkle trees of a fixed height over slots that hold a leaf or nothing. The tree is
the full one: a subtree without leaves is not special, its hash is just that of empty
slots. Hashes are taken of inputs by a digest; as long as the digest tells the inputs
that occur apart, a root determines its tree, and an opening of a root determines its
leaf and its siblings. -/

namespace Lib

/-- What a digest is taken of. -/
inductive Input (L H : Type) where
  | empty
  | leaf (l : L)
  | node (depth : ℕ) (left right : H)

/-- A tree of height `n`. -/
def Slots (L : Type) : ℕ → Type
  | 0 => Option L
  | n + 1 => Slots L n × Slots L n

variable {L H P : Type}

/-- The input of a slot. -/
def slotInput : Option L → Input L H
  | none => .empty
  | some l => .leaf l

theorem slotInput_injective : Function.Injective (slotInput : Option L → Input L H) := by
  intro a b h
  cases a <;> cases b <;> simp_all [slotInput]

namespace Slots

def empty (L : Type) : (n : ℕ) → Slots L n
  | 0 => none
  | n + 1 => (empty L n, empty L n)

/-- The slot at the end of a path that starts at depth `d` and turns by `bits`. -/
def get (bits : ℕ → Bool) : {n : ℕ} → ℕ → Slots L n → Option L
  | 0, _, t => t
  | _ + 1, d, t => get bits (d + 1) (if bits d then t.2 else t.1)

theorem get_congr {bits bits' : ℕ → Bool} {n d : ℕ} (t : Slots L n)
    (h : ∀ i, d ≤ i → i < d + n → bits i = bits' i) : get bits d t = get bits' d t := by
  induction n generalizing d with
  | zero => rfl
  | succ n ih => grind [get]

/-- A path below one side is a path of the whole tree once it turns to that side. -/
theorem get_turn {n d : ℕ} (t : Slots L (n + 1)) (side : Bool) (bits : ℕ → Bool) :
    get (fun i => if i = d then side else bits i) d t =
      get bits (d + 1) (if side then t.2 else t.1) := by
  rw [get, if_pos rfl]
  exact get_congr _ fun i hi _ => if_neg (by omega)

theorem ext_get {n d : ℕ} {t t' : Slots L n} (h : ∀ bits, get bits d t = get bits d t') :
    t = t' := by
  induction n generalizing d with
  | zero => exact h fun _ => false
  | succ n ih =>
    have hside : ∀ (side : Bool) bits, get bits (d + 1) (if side then t.2 else t.1) =
        get bits (d + 1) (if side then t'.2 else t'.1) := by
      intro side bits
      rw [← get_turn, ← get_turn]
      exact h _
    exact Prod.ext (ih (hside false)) (ih (hside true))

@[simp] theorem get_empty (bits : ℕ → Bool) (n d : ℕ) : get bits d (empty L n) = none := by
  induction n generalizing d with
  | zero => rfl
  | succ n ih => rw [get, empty, ite_self]; exact ih (d + 1)

section Hash

variable (dig : Input L H → H)

def hash : {n : ℕ} → ℕ → Slots L n → H
  | 0, _, t => dig (slotInput t)
  | _ + 1, d, t => dig (.node d (hash (d + 1) t.1) (hash (d + 1) t.2))

/-- The inputs of the hashes of a tree. -/
def inputs : {n : ℕ} → ℕ → Slots L n → Set (Input L H)
  | 0, _, t => {slotInput t}
  | _ + 1, d, t => {.node d (hash dig (d + 1) t.1) (hash dig (d + 1) t.2)} ∪
      (inputs (d + 1) t.1 ∪ inputs (d + 1) t.2)

variable {dig}

theorem left_inputs {n d : ℕ} (t : Slots L (n + 1)) :
    inputs dig (d + 1) t.1 ⊆ inputs dig d t := fun _ h => Or.inr (Or.inl h)

theorem right_inputs {n d : ℕ} (t : Slots L (n + 1)) :
    inputs dig (d + 1) t.2 ⊆ inputs dig d t := fun _ h => Or.inr (Or.inr h)

theorem top_mem_inputs {n d : ℕ} (t : Slots L (n + 1)) :
    .node d (hash dig (d + 1) t.1) (hash dig (d + 1) t.2) ∈ inputs dig d t := Or.inl rfl

theorem slotInput_mem_inputs (bits : ℕ → Bool) {n d : ℕ} (t : Slots L n) :
    slotInput (get bits d t) ∈ inputs dig d t := by
  induction n generalizing d with
  | zero => rfl
  | succ n ih => grind [get, right_inputs, left_inputs]

/-- `h` is the hash of a subtree that is not empty. -/
def Occurs (dig : Input L H → H) : {n : ℕ} → ℕ → Slots L n → H → Prop
  | 0, d, t, h => t ≠ empty L 0 ∧ h = hash dig d t
  | n + 1, d, t, h => t ≠ empty L (n + 1) ∧ h = hash dig d t ∨
      Occurs dig (d + 1) t.1 h ∨ Occurs dig (d + 1) t.2 h

theorem not_occurs_empty {n d : ℕ} {h : H} : ¬ Occurs dig d (empty L n) h := by
  induction n generalizing d with
  | zero => exact fun hoccurs => hoccurs.1 rfl
  | succ n ih =>
    rintro (⟨hne, -⟩ | hleft | hright)
    · exact hne rfl
    · exact ih hleft
    · exact ih hright

theorem inputs_depth {n d e : ℕ} {t : Slots L n} {l r : H}
    (h : Input.node e l r ∈ inputs dig d t) : d ≤ e ∧ e < d + n := by
  induction n generalizing d with
  | zero => cases t <;> simp [inputs, slotInput] at h
  | succ n ih =>
    rcases h with h | h | h
    · cases h
      omega
    · have := ih h
      omega
    · have := ih h
      omega

theorem empty_inputs {n d N : ℕ} (h : d + n = N) :
    inputs dig d (empty L n) ⊆ inputs dig 0 (empty L N) := by
  induction d generalizing n with
  | zero => grind
  | succ d ih => exact (left_inputs (empty L (n + 1))).trans (ih (by omega))

theorem hash_injective {I : Set (Input L H)} (hinj : I.InjOn dig) {n d : ℕ} {t t' : Slots L n}
    (ht : inputs dig d t ⊆ I) (ht' : inputs dig d t' ⊆ I) (h : hash dig d t = hash dig d t') :
    t = t' := by
  induction n generalizing d with
  | zero => exact slotInput_injective (hinj (ht rfl) (ht' rfl) h)
  | succ n ih =>
    have hnode := hinj (ht (top_mem_inputs t)) (ht' (top_mem_inputs t')) h
    grind [Prod.ext, left_inputs, right_inputs]

end Hash

section Update

variable (bit : P → ℕ → Bool)

/-- Two paths agree on the `n` bits from depth `d`. -/
def Agree (n d : ℕ) (p q : P) : Prop := ∀ i, d ≤ i → i < d + n → bit p i = bit q i

/-- A batch of writes, each of a slot at the end of a path. -/
def update : {n : ℕ} → ℕ → List (P × Option L) → Slots L n → Slots L n
  | 0, _, [], t => t
  | 0, _, w :: _, _ => w.2
  | _ + 1, d, ws, t =>
    (update (d + 1) (ws.filter fun w => !bit w.1 d) t.1,
     update (d + 1) (ws.filter fun w => bit w.1 d) t.2)

variable {bit}

@[simp] theorem update_nil {n : ℕ} (d : ℕ) (t : Slots L n) : update bit d [] t = t := by
  induction n generalizing d with
  | zero => rfl
  | succ n ih =>
    simp only [update, List.filter_nil, ih]
    rfl

theorem Agree.succ {n d : ℕ} {p q : P} (h : Agree bit n (d + 1) p q) (hd : bit p d = bit q d) :
    Agree bit (n + 1) d p q := by
  intro i hi hlt
  rcases Nat.eq_or_lt_of_le hi with rfl | hi
  · exact hd
  · exact h i hi (by omega)

theorem get_update_succ {n d : ℕ} (ws : List (P × Option L)) (t : Slots L (n + 1)) (p : P) :
    get (bit p) d (update bit d ws t) = get (bit p) (d + 1) (update bit (d + 1)
      (ws.filter fun w => bit w.1 d == bit p d) (if bit p d then t.2 else t.1)) := by
  rw [get, update]
  cases hp : bit p d <;> simp

theorem get_update_of_forall {n d : ℕ} {ws : List (P × Option L)} {t : Slots L n} {p : P}
    (h : ∀ w ∈ ws, ¬ Agree bit n d w.1 p) : get (bit p) d (update bit d ws t) = get (bit p) d t := by
  induction n generalizing d ws with
  | zero =>
    cases ws with
    | nil => rfl
    | cons w ws => exact absurd (fun i hi hlt => by omega) (h w (List.mem_cons_self ..))
  | succ n ih =>
    rw [get_update_succ, get]
    refine ih fun w hw hagree => ?_
    obtain ⟨hmem, hbit⟩ := List.mem_filter.mp hw
    exact h w hmem (hagree.succ (beq_iff_eq.mp hbit))

theorem get_update_of_mem {n d : ℕ} {ws : List (P × Option L)} {t : Slots L n} {p : P}
    {w : P × Option L} (hpair : ws.Pairwise fun a b => ¬ Agree bit n d a.1 b.1) (hw : w ∈ ws)
    (hagree : Agree bit n d w.1 p) : get (bit p) d (update bit d ws t) = w.2 := by
  induction n generalizing d ws with
  | zero =>
    cases ws with
    | nil => cases hw
    | cons a ws =>
      cases ws with
      | nil =>
        obtain rfl := List.mem_singleton.mp hw
        rfl
      | cons b ws =>
        exact absurd (fun i hi hlt => by omega)
          ((List.pairwise_cons.mp hpair).1 b (List.mem_cons_self ..))
  | succ n ih =>
    rw [get_update_succ]
    have hd : bit w.1 d = bit p d := hagree d le_rfl (by omega)
    refine ih ?_ (List.mem_filter.mpr ⟨hw, beq_iff_eq.mpr hd⟩)
      fun i hi hlt => hagree i (by omega) (by omega)
    rw [List.pairwise_filter]
    refine hpair.imp fun {a b} hab ha hb hagree' => hab (hagree'.succ ?_)
    rw [beq_iff_eq.mp ha, beq_iff_eq.mp hb]

end Update

end Slots

section Opening

variable (dig : Input L H → H) (bits : ℕ → Bool)

/-- The node at depth `d` of a path, above the hash `below` on it. -/
def pathNode (sib : ℕ → H) (d : ℕ) (below : H) : Input L H :=
  if bits d then .node d (sib d) below else .node d below (sib d)

/-- The root that a leaf hash and the siblings beside its path lead to. -/
def climb (sib : ℕ → H) (leaf : H) : ℕ → ℕ → H
  | 0, _ => leaf
  | n + 1, d => dig (pathNode bits sib d (climb sib leaf n (d + 1)))

/-- The inputs of an opening, the one of its leaf apart. -/
def climbInputs (sib : ℕ → H) (leaf : H) : ℕ → ℕ → Set (Input L H)
  | 0, _ => ∅
  | n + 1, d => {pathNode bits sib d (climb dig bits sib leaf n (d + 1))} ∪
      climbInputs sib leaf n (d + 1)

/-- The hash beside a path at depth `i`. -/
def siblings : {n : ℕ} → ℕ → Slots L n → ℕ → H
  | 0, d, t, _ => Slots.hash dig d t
  | _ + 1, d, t, i =>
    if i = d then Slots.hash dig (d + 1) (if bits d then t.1 else t.2)
    else siblings (d + 1) (if bits d then t.2 else t.1) i

variable {dig bits}

omit dig in
theorem pathNode_inj {sib sib' : ℕ → H} {d : ℕ} {below below' : H}
    (h : (pathNode bits sib d below : Input L H) = pathNode bits sib' d below') :
    sib d = sib' d ∧ below = below' := by
  grind [pathNode]

theorem climb_snoc (sib : ℕ → H) (leaf : H) (n d : ℕ) :
    climb dig bits sib leaf (n + 1) d =
      climb dig bits sib (dig (pathNode bits sib (d + n) leaf)) n d := by
  induction n generalizing d with
  | zero => rfl
  | succ n ih => rw [climb, ih, show d + 1 + n = d + (n + 1) by omega]; rfl

theorem climbInputs_snoc (sib : ℕ → H) (leaf : H) (n d : ℕ) :
    climbInputs dig bits sib leaf (n + 1) d = {pathNode bits sib (d + n) leaf} ∪
      climbInputs dig bits sib (dig (pathNode bits sib (d + n) leaf)) n d := by
  induction n generalizing d with
  | zero => rfl
  | succ n ih =>
    rw [climbInputs, ih, climb_snoc, show d + 1 + n = d + (n + 1) by omega, Set.union_left_comm]
    rfl

theorem climb_congr {sib sib' : ℕ → H} {leaf : H} {n d : ℕ}
    (h : ∀ i, d ≤ i → i < d + n → sib i = sib' i) :
    climb dig bits sib leaf n d = climb dig bits sib' leaf n d := by
  induction n generalizing d with
  | zero => rfl
  | succ n ih => grind [climb, pathNode]

theorem climbInputs_congr {sib sib' : ℕ → H} {leaf : H} {n d : ℕ}
    (h : ∀ i, d ≤ i → i < d + n → sib i = sib' i) :
    climbInputs dig bits sib leaf n d = climbInputs dig bits sib' leaf n d := by
  induction n generalizing d with
  | zero => rfl
  | succ n ih => grind [climbInputs, climb_congr, pathNode]

theorem climbInputs_depth {sib : ℕ → H} {leaf l r : H} {n d e : ℕ}
    (h : .node e l r ∈ climbInputs dig bits sib leaf n d) : e < d + n := by
  induction n generalizing d with
  | zero => cases h
  | succ n ih =>
    rcases h with h | h
    · rw [Set.mem_singleton_iff, pathNode] at h
      split_ifs at h <;> cases h <;> omega
    · have := ih h
      omega

/-- Two openings of one root along one path are the same. -/
theorem climb_injective {I : Set (Input L H)} (hinj : I.InjOn dig) {sib sib' : ℕ → H}
    {leaf leaf' : H} {n d : ℕ} (hsub : climbInputs dig bits sib leaf n d ⊆ I)
    (hsub' : climbInputs dig bits sib' leaf' n d ⊆ I)
    (h : climb dig bits sib leaf n d = climb dig bits sib' leaf' n d) :
    leaf = leaf' ∧ ∀ i, d ≤ i → i < d + n → sib i = sib' i := by
  induction n generalizing d with
  | zero => exact ⟨h, fun i hi hlt => by omega⟩
  | succ n ih =>
    obtain ⟨hsib, hrest⟩ := pathNode_inj (hinj (hsub (Or.inl rfl)) (hsub' (Or.inl rfl)) h)
    obtain ⟨hleaf, hsibs⟩ := ih (fun _ hi => hsub (Or.inr hi)) (fun _ hi => hsub' (Or.inr hi)) hrest
    grind

theorem siblings_succ {n d i : ℕ} (t : Slots L (n + 1)) (hi : d + 1 ≤ i) :
    siblings dig bits d t i = siblings dig bits (d + 1) (if bits d then t.2 else t.1) i := by
  rw [siblings, if_neg (by omega)]

theorem pathNode_siblings {n d : ℕ} (t : Slots L (n + 1)) :
    (pathNode bits (siblings dig bits d t) d
      (Slots.hash dig (d + 1) (if bits d then t.2 else t.1)) : Input L H) =
      .node d (Slots.hash dig (d + 1) t.1) (Slots.hash dig (d + 1) t.2) := by
  rw [pathNode, siblings, if_pos rfl]
  split_ifs <;> rfl

theorem climb_siblings {n d : ℕ} (t : Slots L n) :
    climb dig bits (siblings dig bits d t) (dig (slotInput (Slots.get bits d t))) n d =
      Slots.hash dig d t := by
  induction n generalizing d with
  | zero => rfl
  | succ n ih =>
    rw [climb, Slots.get, climb_congr fun i hi _ => siblings_succ t hi, ih, pathNode_siblings]
    rfl

/-- The inputs of an honest opening are inputs of the tree. -/
theorem climbInputs_siblings {n d : ℕ} (t : Slots L n) :
    climbInputs dig bits (siblings dig bits d t) (dig (slotInput (Slots.get bits d t))) n d ⊆
      Slots.inputs dig d t := by
  induction n generalizing d with
  | zero => exact Set.empty_subset _
  | succ n ih =>
    have hsibs : ∀ i, d + 1 ≤ i → i < d + 1 + n → siblings dig bits d t i =
        siblings dig bits (d + 1) (if bits d then t.2 else t.1) i :=
      fun i hi _ => siblings_succ t hi
    rw [climbInputs, Slots.get, climbInputs_congr hsibs, climb_congr hsibs, climb_siblings,
      pathNode_siblings]
    rintro i (rfl | hi)
    · exact Slots.top_mem_inputs t
    · grind [Slots.right_inputs, Slots.left_inputs]

end Opening

end Lib
