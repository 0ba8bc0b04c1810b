import Oregon.Lib.MerkleTree
import Oregon.Sanity.Codec
import Oregon.Spec.StateProof

/-! The trees behind the state roots. A leaf is a path with a value; the digest of a tree's
inputs is what the nodes of the state are addressed by. Hashing is taken to be free of
collisions on a set of byte strings that holds all the strings in question: on such a
set the digest tells the inputs apart. -/

namespace Oregon.ContractState

open Lib

/-- A path and the value at its end. -/
abbrev Leaf := Hash256 × Bytes

abbrev StateTree := Slots Leaf SMT_DEPTH

/-- The bits of a path from the root down. -/
abbrev bitOf : Hash256 → ℕ → Bool := pathBitUnchecked

theorem eq_of_agree {p q : Hash256} (h : Slots.Agree bitOf SMT_DEPTH 0 p q) : p = q :=
  BitVec.eq_of_getMsbD_eq fun i hi => h i (Nat.zero_le i) (by simpa [SMT_DEPTH] using hi)

/-- Every way down is that of a path. -/
theorem exists_path (bits : ℕ → Bool) : ∃ p : Hash256, ∀ i, i < SMT_DEPTH → bitOf p i = bits i := by
  refine ⟨(BitVec.ofBoolListBE ((List.range SMT_DEPTH).map bits)).cast (by simp [SMT_DEPTH]),
    fun i hi => ?_⟩
  simp [bitOf, pathBitUnchecked, BitVec.getMsbD_cast, BitVec.getMsbD_ofBoolListBE, hi]

theorem pathBit_ok {path : Hash256} {depth : ℕ} (h : depth < SMT_DEPTH) :
    pathBit path depth = .ok (bitOf path depth) := by
  simp [pathBit, ensure, h, ok_bind, pure, Except.pure]

theorem asBytes_length (h : Hash256) : (Hash256.asBytes h).length = 32 := by
  simp [Hash256.asBytes]

theorem fromBytes_asBytes (h : Hash256) : fromBytes (Hash256.asBytes h) = h := by
  rw [fromBytes, Hash256.asBytes, List.reverse_reverse, readLE_leBytes_of_lt h.isLt,
    BitVec.ofNat_toNat, BitVec.setWidth_eq]

theorem append_ne_append {a b : Bytes} {k : ℕ} (ha : k ≤ a.length) (hb : k ≤ b.length)
    (hne : a.take k ≠ b.take k) (x y : Bytes) : a ++ x ≠ b ++ y := by
  intro h
  have := congrArg (List.take k) h
  grind

theorem empty_ne_leaf (x y : Bytes) : EMPTY_DOMAIN ++ x ≠ LEAF_DOMAIN ++ y :=
  append_ne_append (k := 20) (by decide) (by decide) (by decide) x y

theorem empty_ne_node (x y : Bytes) : EMPTY_DOMAIN ++ x ≠ NODE_DOMAIN ++ y :=
  append_ne_append (k := 20) (by decide) (by decide) (by decide) x y

theorem leaf_ne_node (x y : Bytes) : LEAF_DOMAIN ++ x ≠ NODE_DOMAIN ++ y :=
  append_ne_append (k := 20) (by decide) (by decide) (by decide) x y

section

variable [Crypto] (domain : CommitmentDomainId)

def keyString (key : Bytes) : Bytes := KEY_DOMAIN ++ (domainPrefix domain ++ key)

def valueString (value : Bytes) : Bytes := VALUE_DOMAIN ++ (domainPrefix domain ++ value)

def emptyString : Bytes := EMPTY_DOMAIN ++ domainPrefix domain

def leafString (path valueHash : Hash256) : Bytes :=
  LEAF_DOMAIN ++ (domainPrefix domain ++ Hash256.asBytes path ++ Hash256.asBytes valueHash)

def nodeString (depth : ℕ) (left right : Hash256) : Bytes :=
  NODE_DOMAIN ++
    (domainPrefix domain ++ leBytes 2 depth ++ Hash256.asBytes left ++ Hash256.asBytes right)

def pathDigest (key : Bytes) : Hash256 := Crypto.blake3 (keyString domain key)

def valueDigest (value : Bytes) : Hash256 := Crypto.blake3 (valueString domain value)

def digest : Input Leaf Hash256 → Hash256
  | .empty => Crypto.blake3 (emptyString domain)
  | .leaf (path, value) => leafHash domain path (valueDigest domain value)
  | .node depth left right => branchHashUnchecked domain depth left right

/-- The strings that are hashed for an input. -/
def inputStrings : Input Leaf Hash256 → Set Bytes
  | .empty => {emptyString domain}
  | .leaf (path, value) => {valueString domain value, leafString domain path (valueDigest domain value)}
  | .node depth left right => {nodeString domain depth left right}

/-- The inputs whose strings are among `S`, at the depths that a tree has. -/
def known (S : Set Bytes) : Set (Input Leaf Hash256) :=
  {i | inputStrings domain i ⊆ S ∧ ∀ depth left right, i = .node depth left right → depth < SMT_DEPTH}

variable {domain}

theorem pathKey_ok {key : Bytes} (h : key.length ≤ MAX_STATE_KEY_BYTES) :
    pathKey domain key = .ok (pathDigest domain key) := by
  rw [pathKey, ensure_ok h, ok_bind]
  rfl

theorem pathKey_eq_ok {key : Bytes} {path : Hash256} :
    pathKey domain key = .ok path ↔ key.length ≤ MAX_STATE_KEY_BYTES ∧ pathDigest domain key = path := by
  simp only [pathKey, bind_eq_ok, ensure_eq_ok, exists_and_left, exists_const, pure_eq_ok]
  rfl

theorem valueHash_ok {value : Bytes} (h : value.length ≤ MAX_STATE_VALUE_BYTES) :
    valueHash domain value = .ok (valueDigest domain value) := by
  rw [valueHash, ensure_ok h, ok_bind]
  rfl

theorem valueHash_eq_ok {value : Bytes} {hash : Hash256} : valueHash domain value = .ok hash ↔
    value.length ≤ MAX_STATE_VALUE_BYTES ∧ valueDigest domain value = hash := by
  simp only [valueHash, bind_eq_ok, ensure_eq_ok, exists_and_left, exists_const, pure_eq_ok]
  rfl

omit [Crypto] in
theorem leafString_inj {p q v w : Hash256} (h : leafString domain p v = leafString domain q w) :
    p = q ∧ v = w := by
  have h := List.append_cancel_left h
  grind [List.append_inj', asBytes_length, asBytes_injective]

omit [Crypto] in
theorem nodeString_inj {d e : ℕ} {l r l' r' : Hash256} (hd : d < SMT_DEPTH) (he : e < SMT_DEPTH)
    (h : nodeString domain d l r = nodeString domain e l' r') : d = e ∧ l = l' ∧ r = r' := by
  have h := List.append_cancel_left h
  obtain ⟨h, hright⟩ := List.append_inj' h (by rw [asBytes_length, asBytes_length])
  obtain ⟨h, hleft⟩ := List.append_inj' h (by rw [asBytes_length, asBytes_length])
  have hdepth := List.append_cancel_left h
  simp only [SMT_DEPTH] at hd he
  exact ⟨leBytes_inj (by omega) (by omega) hdepth, asBytes_injective hleft, asBytes_injective hright⟩

variable {S : Set Bytes}

/-- Strings that do not collide keep their values apart. -/
theorem valueDigest_inj (hfree : S.InjOn Crypto.blake3) {v w : Bytes}
    (hv : valueString domain v ∈ S) (hw : valueString domain w ∈ S)
    (h : valueDigest domain v = valueDigest domain w) : v = w :=
  List.append_cancel_left (List.append_cancel_left (hfree hv hw h))

theorem pathDigest_inj (hfree : S.InjOn Crypto.blake3) {k j : Bytes}
    (hk : keyString domain k ∈ S) (hj : keyString domain j ∈ S)
    (h : pathDigest domain k = pathDigest domain j) : k = j :=
  List.append_cancel_left (List.append_cancel_left (hfree hk hj h))

/-- The digest tells the known inputs apart. -/
theorem digest_injOn (hfree : S.InjOn Crypto.blake3) : (known domain S).InjOn (digest domain) := by
  rintro i ⟨hi, hdepth⟩ j ⟨hj, hdepth'⟩ h
  rcases i with _ | ⟨p, v⟩ | ⟨d, l, r⟩ <;> rcases j with _ | ⟨q, w⟩ | ⟨e, l', r'⟩
  · rfl
  · exact absurd (hfree (hi rfl) (hj (Or.inr rfl)) h) (empty_ne_leaf _ _)
  · exact absurd (hfree (hi rfl) (hj rfl) h) (empty_ne_node _ _)
  · exact absurd (hfree (hi (Or.inr rfl)) (hj rfl) h).symm (empty_ne_leaf _ _)
  · obtain ⟨rfl, hvalue⟩ := leafString_inj (hfree (hi (Or.inr rfl)) (hj (Or.inr rfl)) h)
    rw [valueDigest_inj hfree (hi (Or.inl rfl)) (hj (Or.inl rfl)) hvalue]
  · exact absurd (hfree (hi (Or.inr rfl)) (hj rfl) h) (leaf_ne_node _ _)
  · exact absurd (hfree (hi rfl) (hj rfl) h).symm (empty_ne_node _ _)
  · exact absurd (hfree (hi rfl) (hj (Or.inr rfl)) h).symm (leaf_ne_node _ _)
  · obtain ⟨rfl, rfl, rfl⟩ := nodeString_inj (hdepth d l r rfl) (hdepth' e l' r' rfl)
      (hfree (hi rfl) (hj rfl) h)
    rfl

theorem emptyHashAbove_eq {n d : ℕ} (h : d + n = SMT_DEPTH) :
    emptyHashAbove domain n = Slots.hash (digest domain) d (Slots.empty Leaf n) := by
  induction n generalizing d with
  | zero => rfl
  | succ n ih =>
    rw [emptyHashAbove, ih (d := d + 1) (by omega), show SMT_DEPTH - (n + 1) = d by omega]
    rfl

theorem emptyHashes_eq {n d : ℕ} (h : d + n = SMT_DEPTH) :
    emptyHashes domain d = Slots.hash (digest domain) d (Slots.empty Leaf n) := by
  rw [emptyHashes, show SMT_DEPTH - d = n by omega, emptyHashAbove_eq h]

/-- A branch above two empty subtrees is an empty subtree. -/
theorem emptyHashes_branch {d : ℕ} (h : d < SMT_DEPTH) :
    branchHashUnchecked domain d (emptyHashes domain (d + 1)) (emptyHashes domain (d + 1)) =
      emptyHashes domain d := by
  obtain ⟨n, hn⟩ : ∃ n, d + (n + 1) = SMT_DEPTH := ⟨SMT_DEPTH - (d + 1), by omega⟩
  rw [emptyHashes_eq hn, emptyHashes_eq (d := d + 1) (n := n) (by omega)]
  rfl

/-- The source has every node of the tree that is not empty, and the values of its leaves. -/
def Stored (source : StateSource) (domain : CommitmentDomainId) :
    {n : ℕ} → ℕ → Slots Leaf n → Prop
  | 0, _, t => ∀ path value, t = some (path, value) →
    source.getNode (leafHash domain path (valueDigest domain value)) =
      .ok (some (.leaf path (valueDigest domain value))) ∧
    source.getValue (valueDigest domain value) = .ok (some value) ∧
    value.length ≤ MAX_STATE_VALUE_BYTES
  | n + 1, d, t => t = Slots.empty Leaf (n + 1) ∨
    source.getNode (Slots.hash (digest domain) d t) =
      .ok (some (.branch d (Slots.hash (digest domain) (d + 1) t.1)
        (Slots.hash (digest domain) (d + 1) t.2))) ∧
    Stored source domain (d + 1) t.1 ∧ Stored source domain (d + 1) t.2

variable {source : StateSource}

theorem Stored.empty (n d : ℕ) : Stored source domain d (Slots.empty Leaf n) := by
  cases n with
  | zero =>
    intro path value h
    cases h
  | succ n => exact Or.inl rfl

theorem Stored.sides {n d : ℕ} {t : Slots Leaf (n + 1)} (h : Stored source domain d t) :
    Stored source domain (d + 1) t.1 ∧ Stored source domain (d + 1) t.2 := by
  rcases h with rfl | ⟨-, h⟩
  · exact ⟨.empty n _, .empty n _⟩
  · exact h

/-- A branch with a child that is not empty has its hash. -/
theorem hash_branch {n d : ℕ} {t : Slots Leaf (n + 1)} (hd : d + (n + 1) = SMT_DEPTH)
    (hne : ¬ (Slots.hash (digest domain) (d + 1) t.1 = emptyHashes domain (d + 1) ∧
      Slots.hash (digest domain) (d + 1) t.2 = emptyHashes domain (d + 1))) :
    StateNode.hash domain (.branch d (Slots.hash (digest domain) (d + 1) t.1)
      (Slots.hash (digest domain) (d + 1) t.2)) = .ok (Slots.hash (digest domain) d t) := by
  have hlt : d < SMT_DEPTH := by omega
  have hdepth : d < 256 := by rwa [SMT_DEPTH] at hlt
  rw [StateNode.hash, ensure_ok hdepth, ok_bind,
    ensure_ok hne, ok_bind, branchHash,
    ensure_ok hlt, ok_bind]
  rfl

/-- A stored branch loads. -/
theorem Stored.loadBranch {n d : ℕ} {t : Slots Leaf (n + 1)} (h : Stored source domain d t)
    (hd : d + (n + 1) = SMT_DEPTH) (hne : Slots.hash (digest domain) d t ≠ emptyHashes domain d) :
    loadBranch source domain (Slots.hash (digest domain) d t) d =
      .ok (Slots.hash (digest domain) (d + 1) t.1, Slots.hash (digest domain) (d + 1) t.2) := by
  have hlt : d < SMT_DEPTH := by omega
  rcases h with rfl | ⟨hnode, -⟩
  · exact absurd (emptyHashes_eq hd).symm hne
  have hcanonical : ¬ (Slots.hash (digest domain) (d + 1) t.1 = emptyHashes domain (d + 1) ∧
      Slots.hash (digest domain) (d + 1) t.2 = emptyHashes domain (d + 1)) := by
    rintro ⟨hleft, hright⟩
    refine hne ?_
    rw [← emptyHashes_branch hlt, ← hleft]
    nth_rewrite 2 [hleft]
    rw [← hright]
    rfl
  rw [ContractState.loadBranch, loadCheckedNode, hnode, ok_bind, orElse_some, ok_bind,
    hash_branch hd hcanonical, ok_bind]
  simp [ensure, ok_bind, hlt, pure, Except.pure]

/-- A stored leaf loads. -/
theorem Stored.loadLeaf {d : ℕ} {path : Hash256} {value : Bytes} {t : Slots Leaf 0}
    (h : Stored source domain d t) (ht : t = some (path, value)) :
    loadLeaf source domain (Slots.hash (digest domain) d t) path = .ok (valueDigest domain value) ∧
      loadCheckedValue source domain (valueDigest domain value) = .ok value := by
  subst ht
  obtain ⟨hnode, hvalue, hlength⟩ := h path value rfl
  change ContractState.loadLeaf source domain (leafHash domain path (valueDigest domain value)) path =
    _ ∧ _
  constructor
  · rw [ContractState.loadLeaf, loadCheckedNode, hnode, ok_bind, orElse_some, ok_bind]
    simp [StateNode.hash, ensure, ok_bind, pure, Except.pure]
  · rw [loadCheckedValue, hvalue, ok_bind, orElse_some, ok_bind, valueHash_ok hlength]
    simp [ensure, ok_bind, pure, Except.pure]

/-- What is read of a leaf: an empty slot is recognized by its hash. -/
theorem Stored.readLeaf {d : ℕ} {path : Hash256} {t : Slots Leaf 0} (h : Stored source domain d t)
    (hplaced : ∀ l : Leaf, t = some l → l.1 = path) :
    readLeaf source domain path (Slots.hash (digest domain) d t) =
      .ok (if Slots.hash (digest domain) d t = emptyHashes domain SMT_DEPTH then none
        else Option.map Prod.snd t) := by
  rw [ContractState.readLeaf]
  split_ifs with hempty
  · rfl
  · cases t with
    | none => exact absurd (emptyHashes_eq (Nat.add_zero _)).symm hempty
    | some l =>
      obtain rfl := hplaced l rfl
      obtain ⟨hleaf, hvalue⟩ := h.loadLeaf rfl
      rw [hleaf, ok_bind, hvalue, ok_bind]
      rfl

section Apart

variable {I : Set (Input Leaf Hash256)} (hinj : I.InjOn (digest domain))
  (hempty : Slots.inputs (digest domain) 0 (Slots.empty Leaf SMT_DEPTH) ⊆ I)

include hinj hempty

/-- An empty subtree is recognized by its hash. -/
theorem hash_eq_empty {n d : ℕ} {t : Slots Leaf n} (hd : d + n = SMT_DEPTH)
    (ht : Slots.inputs (digest domain) d t ⊆ I) :
    Slots.hash (digest domain) d t = emptyHashes domain d ↔ t = Slots.empty Leaf n := by
  rw [emptyHashes_eq hd]
  refine ⟨Slots.hash_injective hinj ht ((Slots.empty_inputs hd).trans hempty), ?_⟩
  rintro rfl
  rfl

/-- A read returns what the tree holds at the end of the path. -/
theorem readFrom_ok {path : Hash256} {n d : ℕ} {t : Slots Leaf n} (hd : d + n = SMT_DEPTH)
    (ht : Slots.inputs (digest domain) d t ⊆ I) (hstored : Stored source domain d t)
    (hplaced : ∀ l : Leaf, Slots.get (bitOf path) d t = some l → l.1 = path) :
    readFrom source domain path n d (Slots.hash (digest domain) d t) =
      .ok ((Slots.get (bitOf path) d t).map Prod.snd) := by
  induction n generalizing d with
  | zero =>
    obtain rfl : d = SMT_DEPTH := by omega
    rw [readFrom, hstored.readLeaf hplaced]
    split_ifs with hhash
    · obtain rfl := (hash_eq_empty hinj hempty hd ht).mp hhash
      rfl
    · rfl
  | succ n ih =>
    rw [readFrom]
    split_ifs with hhash
    · obtain rfl := (hash_eq_empty hinj hempty hd ht).mp hhash
      rw [Slots.get_empty]
      rfl
    · rw [hstored.loadBranch hd hhash, ok_bind, pathBit_ok (by omega)]
      simp only [ok_bind]
      have hside : (if bitOf path d then Slots.hash (digest domain) (d + 1) t.2
          else Slots.hash (digest domain) (d + 1) t.1) =
          Slots.hash (digest domain) (d + 1) (if bitOf path d then t.2 else t.1) := by
        split_ifs <;> rfl
      rw [hside, Slots.get]
      refine ih (by omega) ?_ ?_ hplaced
      · grind [Slots.right_inputs, Slots.left_inputs]
      · split_ifs
        · exact hstored.sides.2
        · exact hstored.sides.1

end Apart

end

end Oregon.ContractState
