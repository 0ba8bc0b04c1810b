import Oregon.Proofs.StateMap

/-! Proofs about the state. What a proof says is an opening of the root: a hash beside the
path for each depth, the bitmap marking those that are not of empty subtrees. Every
stored tree has a proof for every key, it verifies and reads back from its bytes; and
what verifies for one root and one key is one value with one proof. -/

namespace Oregon.ContractState

open Lib

/-- The proof carries the siblings `sib`, those of empty subtrees left out. -/
structure Carried [Crypto] (domain : CommitmentDomainId) (proof : SparseMerkleProofV1)
    (sib : ℕ → Hash256) : Prop where
  bits : ∀ i, i < SMT_DEPTH →
    (bitmapBit proof.siblingBitmap i = true ↔ sib i ≠ emptyHashes domain (i + 1))
  siblings : proof.siblings =
    ((List.range SMT_DEPTH).filter (bitmapBit proof.siblingBitmap)).map sib

section

variable [Crypto] {domain : CommitmentDomainId}

theorem Carried.unique {p q : SparseMerkleProofV1} {sib sib' : ℕ → Hash256}
    (hp : Carried domain p sib) (hq : Carried domain q sib')
    (h : ∀ i, i < SMT_DEPTH → sib i = sib' i) : p = q := by
  have hbits : p.siblingBitmap = q.siblingBitmap := by
    refine BitVec.eq_of_getMsbD_eq fun i hi => ?_
    have hi : i < SMT_DEPTH := by rwa [SMT_DEPTH]
    exact Bool.eq_iff_iff.mpr ((hp.bits i hi).trans (h i hi ▸ (hq.bits i hi).symm))
  have hsiblings : p.siblings = q.siblings := by
    rw [hp.siblings, hq.siblings, hbits]
    simp_all
  cases p
  simp_all

/-- The hash that a proof for `value` starts from. -/
noncomputable def leafDigest (domain : CommitmentDomainId) (path : Hash256) (value : Option Bytes) :
    Hash256 := digest domain (slotInput (value.map fun value => (path, value)))

theorem claimedLeaf_eq_ok {path leaf : Hash256} {value : Option Bytes} :
    claimedLeaf domain path value = .ok leaf ↔
      (∀ v, value = some v → v.length ≤ MAX_STATE_VALUE_BYTES) ∧
        leafDigest domain path value = leaf := by
  cases value with
  | none =>
    rw [claimedLeaf, pure_eq_ok, emptyHashes_eq (Nat.add_zero SMT_DEPTH)]
    simp [leafDigest, Slots.hash, Slots.empty, slotInput]
  | some v =>
    simp only [claimedLeaf, bind_eq_ok, valueHash_eq_ok, pure_eq_ok, Option.some.injEq,
      forall_eq']
    constructor
    · rintro ⟨_, ⟨hlength, rfl⟩, rfl⟩
      exact ⟨hlength, rfl⟩
    · rintro ⟨hlength, rfl⟩
      exact ⟨_, ⟨hlength, rfl⟩, rfl⟩

theorem branchHash_ok {depth : ℕ} (h : depth < SMT_DEPTH) (left right : Hash256) :
    branchHash domain depth left right = .ok (digest domain (.node depth left right)) := by
  rw [branchHash, ensure_ok h, ok_bind]
  rfl

/-- The strings that are hashed on the way up. -/
def verifyStrings (domain : CommitmentDomainId) (path : Hash256) (bitmap : SiblingBitmap) :
    ℕ → Hash256 → List Hash256 → Set Bytes
  | 0, _, _ => ∅
  | depth + 1, current, rest =>
    match nextSibling domain bitmap depth rest with
    | .error _ => ∅
    | .ok (sibling, rest) =>
      let string := if pathBitUnchecked path depth then nodeString domain depth sibling current
        else nodeString domain depth current sibling
      {string} ∪ verifyStrings domain path bitmap depth (Crypto.blake3 string) rest

theorem verifyFrom_succ {path : Hash256} {bitmap : SiblingBitmap} {depth : ℕ} {current : Hash256}
    {rest : List Hash256} (hdepth : depth < SMT_DEPTH) :
    verifyFrom domain path bitmap (depth + 1) current rest =
      nextSibling domain bitmap depth rest >>= fun next =>
        verifyFrom domain path bitmap depth
          (digest domain (pathNode (bitOf path) (fun _ => next.1) depth current)) next.2 := by
  refine congrArg (nextSibling domain bitmap depth rest >>= ·) (funext fun next => ?_)
  simp only [pathBit_ok hdepth, ok_bind]
  cases hbit : bitOf path depth with
  | false => simp only [Bool.false_eq_true, if_false, branchHash_ok hdepth, ok_bind, pathNode, hbit]
  | true => simp only [if_true, branchHash_ok hdepth, ok_bind, pathNode, hbit]

theorem nextSibling_eq_ok {bitmap : SiblingBitmap} {depth : ℕ} {rest rest' : List Hash256}
    {sibling : Hash256} : nextSibling domain bitmap depth rest = .ok (sibling, rest') ↔
      (bitmapBit bitmap depth = true ∧ rest = sibling :: rest' ∧
        sibling ≠ emptyHashes domain (depth + 1)) ∨
      (bitmapBit bitmap depth = false ∧ sibling = emptyHashes domain (depth + 1) ∧ rest' = rest) := by
  unfold nextSibling
  cases hbit : bitmapBit bitmap depth with
  | false => simp [pure, Except.pure, eq_comm]
  | true =>
    cases rest with
    | nil => simp
    | cons s rest =>
      simp only [if_true, bind_eq_ok, ensure_eq_ok, exists_and_left, exists_const, pure_eq_ok,
        Prod.mk.injEq, true_and, List.cons.injEq, reduceCtorEq, false_and, or_false]
      grind

omit [Crypto] in
theorem filter_range_succ {p : ℕ → Bool} {f : ℕ → Hash256} (n : ℕ) :
    ((List.range (n + 1)).filter p).map f =
      ((List.range n).filter p).map f ++ if p n then [f n] else [] := by
  rw [List.range_succ, List.filter_append, List.map_append]
  cases hp : p n <;> simp [hp]

/-- The string of a node on a path. -/
def pathString (domain : CommitmentDomainId) (path : Hash256) (depth : ℕ) (sibling current : Hash256) :
    Bytes :=
  if pathBitUnchecked path depth then nodeString domain depth sibling current
  else nodeString domain depth current sibling

theorem inputStrings_pathNode (path : Hash256) (sib : ℕ → Hash256) (depth : ℕ) (current : Hash256) :
    inputStrings domain (pathNode (bitOf path) sib depth current) =
      {pathString domain path depth (sib depth) current} := by
  rw [pathNode, pathString]
  split_ifs <;> rfl

theorem digest_pathNode (path : Hash256) (sib : ℕ → Hash256) (depth : ℕ) (current : Hash256) :
    digest domain (pathNode (bitOf path) sib depth current) =
      Crypto.blake3 (pathString domain path depth (sib depth) current) := by
  rw [pathNode, pathString]
  split_ifs <;> rfl

theorem verifyFrom_sound {path : Hash256} {bitmap : SiblingBitmap} {depth : ℕ}
    {current final : Hash256} {rest : List Hash256} (hdepth : depth ≤ SMT_DEPTH)
    (h : verifyFrom domain path bitmap depth current rest = .ok (final, [])) :
    ∃ sib, climb (digest domain) (bitOf path) sib current depth 0 = final ∧
      (∀ i, i < depth → (bitmapBit bitmap i = true ↔ sib i ≠ emptyHashes domain (i + 1))) ∧
      rest.reverse = ((List.range depth).filter (bitmapBit bitmap)).map sib ∧
      ∀ i ∈ climbInputs (digest domain) (bitOf path) sib current depth 0,
        inputStrings domain i ⊆ verifyStrings domain path bitmap depth current rest := by
  induction depth generalizing current rest with
  | zero =>
    obtain ⟨rfl, rfl⟩ := Prod.mk.inj (pure_eq_ok.mp h)
    exact ⟨fun _ => 0, rfl, fun i hi => absurd hi (Nat.not_lt_zero i), rfl,
      fun i hi => absurd hi (Set.notMem_empty i)⟩
  | succ depth ih =>
    rw [verifyFrom_succ (by omega), bind_eq_ok] at h
    obtain ⟨⟨sibling, rest'⟩, hnext, h⟩ := h
    obtain ⟨sib, hclimb, hbits, hrest, hinputs⟩ := ih (by omega) h
    -- the sibling of this level beside those of the levels above
    let sibs : ℕ → Hash256 := fun i => if i = depth then sibling else sib i
    have hbelow : ∀ i, i < depth → sibs i = sib i := fun i hi => if_neg (by omega)
    have hhere : sibs depth = sibling := if_pos rfl
    have hnode : (pathNode (bitOf path) sibs (0 + depth) current : Input Leaf Hash256) =
        pathNode (bitOf path) (fun _ => sibling) depth current := by
      rw [Nat.zero_add, pathNode, pathNode, hhere]
    have hcongr : ∀ i, 0 ≤ i → i < 0 + depth → sibs i = sib i := fun i _ hi => hbelow i (by omega)
    have hlist : ((List.range depth).filter (bitmapBit bitmap)).map sibs =
        ((List.range depth).filter (bitmapBit bitmap)).map sib :=
      List.map_congr_left fun i hi => hbelow i (List.mem_range.mp (List.mem_filter.mp hi).1)
    refine ⟨sibs, ?_, fun i hi => ?_, ?_, fun i hi => ?_⟩
    · rw [climb_snoc, hnode, climb_congr hcongr, hclimb]
    · rcases Nat.lt_succ_iff_lt_or_eq.mp hi with hi | rfl
      · rw [hbelow i hi]
        exact hbits i hi
      · rw [hhere]
        rcases nextSibling_eq_ok.mp hnext with ⟨hbit, -, hne⟩ | ⟨hbit, heq, -⟩
        · exact ⟨fun _ => hne, fun _ => hbit⟩
        · simp [hbit, heq]
    · rw [filter_range_succ, hlist, ← hrest, hhere]
      rcases nextSibling_eq_ok.mp hnext with ⟨hbit, rfl, -⟩ | ⟨hbit, -, rfl⟩
      · simp [hbit]
      · simp [hbit]
    · rw [climbInputs_snoc, hnode, climbInputs_congr hcongr] at hi
      rw [verifyStrings, hnext]
      rcases hi with rfl | hi
      · rw [inputStrings_pathNode]
        exact Set.subset_union_left
      · refine (hinputs i hi).trans ?_
        rw [digest_pathNode]
        exact Set.subset_union_right

theorem nextSibling_carried {bitmap : SiblingBitmap} {depth : ℕ} {sib : ℕ → Hash256}
    (hbit : bitmapBit bitmap depth = true ↔ sib depth ≠ emptyHashes domain (depth + 1)) :
    nextSibling domain bitmap depth
        (((List.range (depth + 1)).filter (bitmapBit bitmap)).map sib).reverse =
      .ok (sib depth, (((List.range depth).filter (bitmapBit bitmap)).map sib).reverse) := by
  rw [nextSibling_eq_ok, filter_range_succ]
  cases hset : bitmapBit bitmap depth with
  | false => simp_all
  | true => exact Or.inl ⟨rfl, by simp, hbit.mp hset⟩

theorem verifyFrom_complete {path : Hash256} {bitmap : SiblingBitmap} {depth : ℕ}
    {sib : ℕ → Hash256} (current : Hash256) (hdepth : depth ≤ SMT_DEPTH)
    (hbits : ∀ i, i < depth → (bitmapBit bitmap i = true ↔ sib i ≠ emptyHashes domain (i + 1))) :
    verifyFrom domain path bitmap depth current
        (((List.range depth).filter (bitmapBit bitmap)).map sib).reverse =
      .ok (climb (digest domain) (bitOf path) sib current depth 0, []) := by
  induction depth generalizing current with
  | zero => rfl
  | succ depth ih =>
    rw [verifyFrom_succ (by omega), nextSibling_carried (hbits depth (Nat.lt_succ_self _)), ok_bind,
      climb_snoc, Nat.zero_add]
    exact ih _ (by omega) fun i hi => hbits i (by omega)

/-- The strings that are hashed when a proof for `value` is verified. -/
def openingStrings (domain : CommitmentDomainId) (key : Bytes) (value : Option Bytes)
    (proof : SparseMerkleProofV1) : Set Bytes :=
  {keyString domain key} ∪
    inputStrings domain (slotInput (value.map fun value => (pathDigest domain key, value))) ∪
    verifyStrings domain (pathDigest domain key) proof.siblingBitmap SMT_DEPTH
      (leafDigest domain (pathDigest domain key) value) proof.siblings.reverse

theorem verifyProof_eq_ok {key : Bytes} {value : Option Bytes} {proof : SparseMerkleProofV1}
    {root : Hash256} : verifyProof domain key value proof root = .ok () ↔
      key.length ≤ MAX_STATE_KEY_BYTES ∧
      (∀ v, value = some v → v.length ≤ MAX_STATE_VALUE_BYTES) ∧
      verifyFrom domain (pathDigest domain key) proof.siblingBitmap SMT_DEPTH
        (leafDigest domain (pathDigest domain key) value) proof.siblings.reverse = .ok (root, []) := by
  simp only [verifyProof, bind_eq_ok, pathKey_eq_ok, claimedLeaf_eq_ok]
  simp

variable {S : Set Bytes}

theorem verifyProof_sound {key : Bytes} {value : Option Bytes} {proof : SparseMerkleProofV1}
    {root : Hash256} (hstrings : openingStrings domain key value proof ⊆ S)
    (h : verifyProof domain key value proof root = .ok ()) :
    ∃ sib, Carried domain proof sib ∧
      climb (digest domain) (bitOf (pathDigest domain key)) sib
        (leafDigest domain (pathDigest domain key) value) SMT_DEPTH 0 = root ∧
      climbInputs (digest domain) (bitOf (pathDigest domain key)) sib
        (leafDigest domain (pathDigest domain key) value) SMT_DEPTH 0 ⊆ known domain S := by
  obtain ⟨-, -, hverify⟩ := verifyProof_eq_ok.mp h
  obtain ⟨sib, hclimb, hbits, hsiblings, hinputs⟩ := verifyFrom_sound le_rfl hverify
  rw [List.reverse_reverse] at hsiblings
  refine ⟨sib, ⟨hbits, hsiblings⟩, hclimb, fun i hi => ⟨?_, ?_⟩⟩
  · exact (hinputs i hi).trans fun x hx => hstrings (Or.inr hx)
  · rintro depth left right rfl
    have := climbInputs_depth hi
    omega

theorem slotInput_known {path : Hash256} {value : Option Bytes}
    (h : inputStrings domain (slotInput (value.map fun value => (path, value))) ⊆ S) :
    slotInput (value.map fun value => (path, value)) ∈ known domain S := by
  refine ⟨h, fun depth left right heq => ?_⟩
  cases value <;> simp [slotInput] at heq

theorem openingStrings_leaf {key : Bytes} {value : Option Bytes} {proof : SparseMerkleProofV1}
    (h : openingStrings domain key value proof ⊆ S) :
    slotInput (value.map fun value => (pathDigest domain key, value)) ∈ known domain S :=
  slotInput_known fun _ hx => h (Or.inl (Or.inr hx))

section Unique

variable (hfree : S.InjOn Crypto.blake3)

include hfree

theorem leafDigest_inj {path : Hash256} {value value' : Option Bytes}
    (hvalue : slotInput (value.map fun value => (path, value)) ∈ known domain S)
    (hvalue' : slotInput (value'.map fun value => (path, value)) ∈ known domain S)
    (h : leafDigest domain path value = leafDigest domain path value') : value = value' :=
  Option.map_injective (Prod.mk_right_injective path)
    (slotInput_injective (digest_injOn hfree hvalue hvalue' h))

theorem verifyProof_stateRoot {m : StateMap} (hm : stateStrings domain m ⊆ S) {key : Bytes}
    {value : Option Bytes} {proof : SparseMerkleProofV1}
    (hstrings : openingStrings domain key value proof ⊆ S)
    (h : verifyProof domain key value proof (stateRoot domain m) = .ok ()) : value = m[key]? := by
  have hget := get_stateTree hfree (fun _ => key_known hm) (hstrings (Or.inl (Or.inl rfl)))
  have hleaf := tree_known hm (Slots.slotInput_mem_inputs (bitOf (pathDigest domain key)) _)
  have hpath := @climb_siblings Leaf Hash256 (digest domain) (bitOf (pathDigest domain key)) _ 0
    (stateTree domain m)
  have hpathKnown := (@climbInputs_siblings Leaf Hash256 (digest domain)
    (bitOf (pathDigest domain key)) _ 0 (stateTree domain m)).trans (tree_known hm)
  rw [hget] at hleaf hpath hpathKnown
  obtain ⟨sib, -, hclimb, hknown⟩ := verifyProof_sound hstrings h
  obtain ⟨hdigest, -⟩ := climb_injective (digest_injOn hfree) hknown hpathKnown
    (hclimb.trans hpath.symm)
  exact leafDigest_inj hfree (openingStrings_leaf hstrings) hleaf hdigest

omit hfree in
theorem exists_carried (domain : CommitmentDomainId) (sib : ℕ → Hash256) :
    ∃ proof, Carried domain proof sib := by
  obtain ⟨bitmap, hbitmap⟩ := exists_path fun i => decide (sib i ≠ emptyHashes domain (i + 1))
  refine ⟨⟨bitmap, ((List.range SMT_DEPTH).filter (bitmapBit bitmap)).map sib⟩, fun i hi => ?_, rfl⟩
  rw [show bitmapBit bitmap i = _ from hbitmap i hi, decide_eq_true_eq]

omit hfree in
theorem verifyStrings_carried {path : Hash256} {bitmap : SiblingBitmap} {depth : ℕ}
    {sib : ℕ → Hash256} (current : Hash256) (hdepth : depth ≤ SMT_DEPTH)
    (hbits : ∀ i, i < depth → (bitmapBit bitmap i = true ↔ sib i ≠ emptyHashes domain (i + 1)))
    (hclimb : ∀ i ∈ climbInputs (digest domain) (bitOf path) sib current depth 0,
      inputStrings domain i ⊆ S) :
    verifyStrings domain path bitmap depth current
      (((List.range depth).filter (bitmapBit bitmap)).map sib).reverse ⊆ S := by
  induction depth generalizing current with
  | zero => exact Set.empty_subset _
  | succ depth ih =>
    rw [climbInputs_snoc, Nat.zero_add] at hclimb
    have hhere := hclimb _ (Or.inl rfl)
    rw [inputStrings_pathNode] at hhere
    rw [verifyStrings, nextSibling_carried (hbits depth (Nat.lt_succ_self _))]
    refine Set.union_subset hhere (ih _ (by omega) (fun i hi => hbits i (by omega)) fun i hi => ?_)
    exact hclimb i (Or.inr (digest_pathNode path sib depth current ▸ hi))

/-- The value of a key in a map has a proof whose strings are among those of the map. -/
theorem exists_proof {m : StateMap} (hm : stateStrings domain m ⊆ S) {key : Bytes}
    (hkey : keyString domain key ∈ S) (hlength : key.length ≤ MAX_STATE_KEY_BYTES)
    (hvalue : ∀ v, m[key]? = some v → v.length ≤ MAX_STATE_VALUE_BYTES) :
    ∃ proof, verifyProof domain key m[key]? proof (stateRoot domain m) = .ok () ∧
      openingStrings domain key m[key]? proof ⊆ S := by
  have hget := get_stateTree hfree (fun _ => key_known hm) hkey
  have hpath := @climb_siblings Leaf Hash256 (digest domain) (bitOf (pathDigest domain key)) _ 0
    (stateTree domain m)
  have hinputs := @climbInputs_siblings Leaf Hash256 (digest domain)
    (bitOf (pathDigest domain key)) _ 0 (stateTree domain m)
  have hleaf := tree_known hm (Slots.slotInput_mem_inputs (bitOf (pathDigest domain key)) _)
  rw [hget] at hpath hinputs hleaf
  obtain ⟨proof, hcarried⟩ := exists_carried domain
    (siblings (digest domain) (bitOf (pathDigest domain key)) 0 (stateTree domain m))
  refine ⟨proof, verifyProof_eq_ok.mpr ⟨hlength, hvalue, ?_⟩, ?_⟩
  · rw [hcarried.siblings, verifyFrom_complete _ le_rfl hcarried.bits]
    exact congrArg (fun root => Except.ok (root, [])) hpath
  · refine Set.union_subset (Set.union_subset (Set.singleton_subset_iff.mpr hkey) hleaf.1) ?_
    rw [hcarried.siblings]
    exact verifyStrings_carried _ le_rfl hcarried.bits fun i hi => (tree_known hm (hinputs hi)).1

/-- One root and one key have one value with one proof, and for the root of a map that
write sets have built the value is the one in the map. -/
theorem accepted_proof_unique {key : Bytes} {value value' : Option Bytes}
    {proof proof' : SparseMerkleProofV1} {root : Hash256}
    (hstrings : openingStrings domain key value proof ⊆ S)
    (hstrings' : openingStrings domain key value' proof' ⊆ S)
    (h : verifyProof domain key value proof root = .ok ())
    (h' : verifyProof domain key value' proof' root = .ok ()) :
    value = value' ∧ proof.encode = proof'.encode ∧
    ∀ (source final : StateSource) (batches : List (List StateWrite)),
      source.Honest domain S → historyStrings domain ∅ batches ⊆ S →
      applyBatches domain source (emptyHashes domain 0) batches = .ok (final, root) →
      value = (batches.foldl StateMap.writeAll ∅)[key]? := by
  obtain ⟨sib, hcarried, hclimb, hknown⟩ := verifyProof_sound hstrings h
  obtain ⟨sib', hcarried', hclimb', hknown'⟩ := verifyProof_sound hstrings' h'
  obtain ⟨hleaf, hsibs⟩ := climb_injective (digest_injOn hfree) hknown hknown'
    (hclimb.trans hclimb'.symm)
  refine ⟨leafDigest_inj hfree (openingStrings_leaf hstrings) (openingStrings_leaf hstrings') hleaf,
    ?_, fun source final batches hhonest hhistory hrun => ?_⟩
  · rw [hcarried.unique hcarried' fun i hi => hsibs i (Nat.zero_le i) (by omega)]
  · obtain ⟨_, hrun', -⟩ := applyBatches_empty hfree hhistory hhonest (applyBatches_accepted hrun)
    rw [hrun'] at hrun
    cases hrun
    exact verifyProof_stateRoot hfree (history_last hhistory) hstrings h

end Unique

end

open Oregon.ContractState.Sample in
/-- The proof of a value that was put. -/
theorem accepted_proof_unique_sample : ∃ proof root,
    verifyProof .evm [1] (some [2]) proof root = .ok () ∧
    ∀ proof', openingStrings .evm [1] none proof' ⊆ tableStrings twoEntries →
      verifyProof .evm [1] none proof' root ≠ .ok () := by
  have hkey : keyString .evm [1] ∈ _ := putOne_keys ⟨[1], some [2]⟩ (List.mem_singleton.mpr rfl)
  obtain ⟨proof, hproof, hstrings⟩ := exists_proof free oneMap_strings hkey (by decide)
    (by simp [oneMap_lookup, MAX_STATE_VALUE_BYTES])
  rw [oneMap_lookup] at hproof hstrings
  refine ⟨proof, _, hproof, fun proof' hstrings' hproof' => ?_⟩
  cases (accepted_proof_unique free hstrings hstrings' hproof hproof').1

section

variable [Crypto] {domain : CommitmentDomainId}

section Complete

omit [Crypto] in
theorem bitmapBit_set (bitmap : SiblingBitmap) {d i : ℕ} (hd : d < SMT_DEPTH) (hi : i < SMT_DEPTH) :
    bitmapBit (setBitmapBit bitmap d) i = (bitmapBit bitmap i || decide (i = d)) := by
  rw [SMT_DEPTH] at hd hi
  rw [bitmapBit, bitmapBit, setBitmapBit, BitVec.getMsbD_or]
  grind

omit [Crypto] in
theorem filter_range_of_false {p : ℕ → Bool} {d n : ℕ} (hd : d ≤ n)
    (h : ∀ i, d ≤ i → i < n → p i = false) : (List.range n).filter p = (List.range d).filter p := by
  induction n, hd using Nat.le_induction with
  | base => rfl
  | succ n hn ih =>
    rw [List.range_succ, List.filter_append, ih fun i hi hlt => h i hi (by omega)]
    simp [h n hn (by omega)]

/-- The next sibling on the way down is added to the proof unless it is an empty one. -/
theorem Carried.extend {proof : SparseMerkleProofV1} {sib : ℕ → Hash256} {d : ℕ}
    (h : Carried domain proof sib) (hd : d < SMT_DEPTH)
    (habove : ∀ i, d ≤ i → i < SMT_DEPTH → sib i = emptyHashes domain (i + 1)) (sibling : Hash256) :
    Carried domain (if sibling ≠ emptyHashes domain (d + 1) then
        { siblingBitmap := setBitmapBit proof.siblingBitmap d
          siblings := proof.siblings ++ [sibling] }
      else proof) (Function.update sib d sibling) := by
  by_cases hempty : sibling = emptyHashes domain (d + 1)
  · rw [if_neg (not_not.mpr hempty), hempty, ← habove d le_rfl hd, Function.update_eq_self]
    exact h
  rw [if_pos hempty]
  have hclear : ∀ i, d ≤ i → i < SMT_DEPTH → bitmapBit proof.siblingBitmap i = false := by
    intro i hi hlt
    rw [← Bool.not_eq_true, h.bits i hlt, not_not]
    exact habove i hi hlt
  refine ⟨fun i hi => ?_, ?_⟩
  · rw [bitmapBit_set _ hd hi, Function.update_apply, Bool.or_eq_true, h.bits i hi,
      decide_eq_true_eq]
    grind
  · -- the bits above are clear, before and after
    have hafter : ∀ i, d + 1 ≤ i → i < SMT_DEPTH →
        bitmapBit (setBitmapBit proof.siblingBitmap d) i = false := by
      intro i hi hlt
      rw [bitmapBit_set _ hd hlt, hclear i (by omega) hlt, decide_eq_false (by omega)]
      rfl
    have hbelow : (List.range d).filter (bitmapBit (setBitmapBit proof.siblingBitmap d)) =
        (List.range d).filter (bitmapBit proof.siblingBitmap) := by
      refine List.filter_congr fun i hi => ?_
      have hi := List.mem_range.mp hi
      rw [bitmapBit_set _ hd (by omega), decide_eq_false (by omega), Bool.or_false]
    rw [filter_range_of_false hd hafter, filter_range_succ, hbelow, h.siblings,
      filter_range_of_false hd.le hclear, bitmapBit_set _ hd hd, decide_eq_true rfl, Bool.or_true,
      if_pos rfl, Function.update_self]
    refine congrArg (· ++ [sibling]) (List.map_congr_left fun i hi => ?_)
    grind

omit [Crypto] in
theorem Hash256.flatMap_length (hashes : List Hash256) :
    (hashes.flatMap Hash256.asBytes).length = 32 * hashes.length := by
  induction hashes with
  | nil => rfl
  | cons h hashes ih =>
    rw [List.flatMap_cons, List.length_append, ih, asBytes_length, List.length_cons]
    omega

theorem readSiblings_flatMap {bitmap : SiblingBitmap} {sib : ℕ → Hash256} {depths : List ℕ}
    (h : ∀ i ∈ depths, bitmapBit bitmap i = true → sib i ≠ emptyHashes domain (i + 1)) :
    readSiblings domain bitmap depths
        (((depths.filter (bitmapBit bitmap)).map sib).flatMap Hash256.asBytes) =
      .ok ((depths.filter (bitmapBit bitmap)).map sib, []) := by
  induction depths with
  | nil => rfl
  | cons i depths ih =>
    obtain ⟨hi, hrest⟩ := List.forall_mem_cons.mp h
    rw [readSiblings]
    cases hbit : bitmapBit bitmap i with
    | false => rw [if_pos rfl, List.filter_cons_of_neg (by simp [hbit]), ih hrest]
    | true =>
      have htake : ∀ rest : Bytes, (Hash256.asBytes (sib i) ++ rest).take 32 =
          Hash256.asBytes (sib i) := fun rest => List.take_left' (asBytes_length _)
      have hdrop : ∀ rest : Bytes, (Hash256.asBytes (sib i) ++ rest).drop 32 = rest :=
        fun rest => List.drop_left' (asBytes_length _)
      rw [if_neg (by simp), List.filter_cons_of_pos hbit, List.map_cons, List.flatMap_cons]
      simp only [htake, hdrop, fromBytes_asBytes, ih hrest, ensure, if_pos (hi hbit), ok_bind]
      rfl

/-- The bytes of a proof that carries siblings are within the bound and read back. -/
theorem Carried.decode_encode {proof : SparseMerkleProofV1} {sib : ℕ → Hash256}
    (h : Carried domain proof sib) : SparseMerkleProofV1.decode domain proof.encode = .ok proof ∧
      proof.encode.length ≤ MAX_SMT_PROOF_BYTES := by
  have hcount : proof.siblings.length = countOnes proof.siblingBitmap := by
    rw [h.siblings, List.length_map, countOnes, List.countP_eq_length_filter]
  have hmax : proof.siblings.length ≤ MAX_SMT_SIBLINGS := by
    grind [countOnes, List.length_range, SMT_DEPTH, MAX_SMT_SIBLINGS]
  have hlength : proof.encode.length = HEADER_BYTES + 32 * proof.siblings.length := by
    rw [SparseMerkleProofV1.encode, List.length_append, List.length_append, leBytes_length,
      asBytes_length, Hash256.flatMap_length]
    rfl
  have hversion : proof.encode.take 2 = leBytes 2 SMT_PROOF_VERSION := by
    rw [SparseMerkleProofV1.encode, List.append_assoc, List.take_left' (leBytes_length _ _)]
  have hbitmap : (proof.encode.drop 2).take SMT_PROOF_BITMAP_BYTES =
      Hash256.asBytes proof.siblingBitmap := by
    exact List.take_left' (asBytes_length _)
  have hsiblings : proof.encode.drop HEADER_BYTES = proof.siblings.flatMap Hash256.asBytes := by
    refine List.drop_left' ?_
    rfl
  have hread : readSiblings domain proof.siblingBitmap (List.range SMT_DEPTH)
      (proof.siblings.flatMap Hash256.asBytes) = .ok (proof.siblings, []) := by
    rw [h.siblings]
    exact readSiblings_flatMap fun i hi => (h.bits i (List.mem_range.mp hi)).mp
  have hbound : proof.encode.length ≤ MAX_SMT_PROOF_BYTES := by
    simp only [MAX_SMT_PROOF_BYTES, HEADER_BYTES, MAX_SMT_SIBLINGS] at *
    omega
  refine ⟨?_, hbound⟩
  have hcounted : (proof.encode.length - HEADER_BYTES) / 32 = proof.siblings.length := by omega
  have hframed : HEADER_BYTES ≤ proof.encode.length ∧
      (proof.encode.length - HEADER_BYTES) % 32 = 0 := by omega
  simp only [SparseMerkleProofV1.decode, hversion, hbitmap, hsiblings, hcounted, fromBytes_asBytes,
    hread, ensure, if_pos hbound, if_pos hframed, ok_bind,
    if_pos (And.intro hcount hmax), if_true]
  rfl

theorem leafDigest_none (path : Hash256) :
    leafDigest domain path none = emptyHashes domain SMT_DEPTH := by
  rw [emptyHashes_eq (Nat.add_zero SMT_DEPTH)]
  rfl

theorem climb_empty {path : Hash256} {sib : ℕ → Hash256} {n d : ℕ} (hd : d + n = SMT_DEPTH)
    (habove : ∀ i, d ≤ i → i < SMT_DEPTH → sib i = emptyHashes domain (i + 1)) :
    climb (digest domain) (bitOf path) sib (leafDigest domain path none) n d =
      emptyHashes domain d := by
  induction n generalizing d with
  | zero =>
    obtain rfl : d = SMT_DEPTH := by omega
    exact leafDigest_none path
  | succ n ih =>
    rw [climb, ih (by omega) fun i hi => habove i (by omega), pathNode,
      habove d le_rfl (by omega), ite_self]
    exact emptyHashes_branch (by omega)

variable {source : StateSource}

/-- A stored tree has a proof along every path, of the value that is read there. -/
theorem proveFrom_ok {path : Hash256} {n d : ℕ} {t : Slots Leaf n} {proof : SparseMerkleProofV1}
    {sib : ℕ → Hash256} (hd : d + n = SMT_DEPTH) (hstored : Stored source domain d t)
    (hplaced : ∀ l : Leaf, Slots.get (bitOf path) d t = some l → l.1 = path)
    (hcarried : Carried domain proof sib)
    (habove : ∀ i, d ≤ i → i < SMT_DEPTH → sib i = emptyHashes domain (i + 1)) :
    ∃ value proof' sib',
      proveFrom source domain path n d (Slots.hash (digest domain) d t) proof = .ok (value, proof') ∧
      readFrom source domain path n d (Slots.hash (digest domain) d t) = .ok value ∧
      (∀ v, value = some v → v.length ≤ MAX_STATE_VALUE_BYTES) ∧
      Carried domain proof' sib' ∧ (∀ i, i < d → sib' i = sib i) ∧
      climb (digest domain) (bitOf path) sib' (leafDigest domain path value) n d =
        Slots.hash (digest domain) d t := by
  induction n generalizing d proof sib with
  | zero =>
    have hread := hstored.readLeaf hplaced
    refine ⟨_, proof, sib, by rw [proveFrom, hread]; rfl, by rw [readFrom, hread], ?_, hcarried,
      fun _ _ => rfl, ?_⟩
    · split_ifs with hhash
      · simp
      · rintro v hv
        obtain ⟨⟨path', _⟩, ht, rfl⟩ := Option.map_eq_some_iff.mp hv
        exact (hstored path' _ ht).2.2
    · split_ifs with hhash
      · exact (leafDigest_none path).trans hhash.symm
      · cases t with
        | none => rfl
        | some l =>
          obtain rfl := hplaced l rfl
          rfl
  | succ n ih =>
    rw [proveFrom, readFrom]
    split_ifs with hhash
    · exact ⟨none, proof, sib, rfl, rfl, by rintro _ ⟨⟩, hcarried, fun _ _ => rfl,
        (climb_empty hd habove).trans hhash.symm⟩
    have hlt : d < SMT_DEPTH := by omega
    -- the walk goes to one side and the proof takes the other
    let side := if bitOf path d then t.2 else t.1
    let other := if bitOf path d then t.1 else t.2
    have hwalk : (if bitOf path d then
          (Slots.hash (digest domain) (d + 1) t.2, Slots.hash (digest domain) (d + 1) t.1)
        else (Slots.hash (digest domain) (d + 1) t.1, Slots.hash (digest domain) (d + 1) t.2)) =
        (Slots.hash (digest domain) (d + 1) side, Slots.hash (digest domain) (d + 1) other) := by
      grind
    have hside : (if bitOf path d then Slots.hash (digest domain) (d + 1) t.2
        else Slots.hash (digest domain) (d + 1) t.1) = Slots.hash (digest domain) (d + 1) side := by
      dsimp only [side]
      split_ifs <;> rfl
    have hstoredSide : Stored source domain (d + 1) side := by
      dsimp only [side]
      split_ifs
      · exact hstored.sides.2
      · exact hstored.sides.1
    have hnext : ∀ i, d + 1 ≤ i → i < SMT_DEPTH →
        Function.update sib d (Slots.hash (digest domain) (d + 1) other) i =
          emptyHashes domain (i + 1) := fun i hi hi' => by
      rw [Function.update_of_ne (by omega), habove i (by omega) hi']
    obtain ⟨value, proof', sib', hprove, hread, hlength, hcarried', hbelow, hclimb⟩ :=
      ih (by omega) hstoredSide hplaced (hcarried.extend hlt habove _) hnext
    refine ⟨value, proof', sib', ?_, ?_, hlength, hcarried', fun i hi => ?_, ?_⟩
    · simp only [hstored.loadBranch hd hhash, ok_bind, pathBit_ok hlt, hwalk]
      exact hprove
    · simp only [hstored.loadBranch hd hhash, ok_bind, pathBit_ok hlt, hside]
      exact hread
    · rw [hbelow i (by omega), Function.update_of_ne (by omega)]
    · rw [climb, hclimb, pathNode, hbelow d (Nat.lt_succ_self d), Function.update_self]
      dsimp only [side, other]
      split_ifs <;> rfl

/-- The tree after a write set. -/
noncomputable def StateWriteSet.apply (t : StateTree) (writeSet : StateWriteSet) : StateTree :=
  Slots.update bitOf 0 (writeSet.writes.map PreparedWrite.slot) t

/-- The tree that write sets build from the empty one. -/
noncomputable def builtTree (writeSets : List StateWriteSet) : StateTree :=
  writeSets.foldl StateWriteSet.apply (Slots.empty Leaf SMT_DEPTH)

/-- Leaves are at the end of their own paths. -/
def Placed (t : StateTree) : Prop :=
  ∀ path (l : Leaf), Slots.get (bitOf path) 0 t = some l → l.1 = path

omit [Crypto] in
theorem Placed.apply {t : StateTree} (h : Placed t) (writeSet : StateWriteSet) :
    Placed (writeSet.apply t) := by
  intro path l hl
  rw [StateWriteSet.apply] at hl
  by_cases hwritten : ∃ w ∈ writeSet.writes, w.path = path
  · obtain ⟨w, hw, rfl⟩ := hwritten
    rw [Slots.get_update_of_mem (w := w.slot) writeSet.pairwise (List.mem_map_of_mem hw)
      fun i _ _ => by rw [PreparedWrite.slot_path]] at hl
    exact w.slot_placed hl
  · rw [Slots.get_update_of_forall] at hl
    · exact h path l hl
    · intro a ha hagree
      obtain ⟨w, hw, rfl⟩ := List.mem_map.mp ha
      grind [PreparedWrite.slot_path, eq_of_agree]

omit [Crypto] in
theorem placed_builtTree (writeSets : List StateWriteSet) : Placed (builtTree writeSets) := by
  have hempty : Placed (Slots.empty Leaf SMT_DEPTH) := fun path l hl => by
    rw [Slots.get_empty] at hl
    cases hl
  rw [builtTree]
  generalize Slots.empty Leaf SMT_DEPTH = t at hempty
  induction writeSets generalizing t with
  | nil => exact hempty
  | cons writeSet writeSets ih => exact ih _ (hempty.apply writeSet)

theorem carried_empty : Carried domain ⟨0, []⟩ fun i => emptyHashes domain (i + 1) := by
  have hbit : ∀ i, bitmapBit 0#256 i = false := fun i => by simp [bitmapBit]
  refine ⟨fun i _ => by simp [hbit], ?_⟩
  simp [hbit]

/-- A source that stores the tree of a root has a proof for every key: it is for the
value that a read returns, it verifies for the root, and its bytes are within the bound
and read back. -/
theorem stored_tree_proves {writeSets : List StateWriteSet} {root : Hash256}
    (hroot : Slots.hash (digest domain) 0 (builtTree writeSets) = root)
    (hstored : Stored source domain 0 (builtTree writeSets)) {key : Bytes}
    (hlength : key.length ≤ MAX_STATE_KEY_BYTES) :
    ∃ value proof,
      prove source ⟨domain, root⟩ key = .ok (value, proof) ∧
      readValue source ⟨domain, root⟩ key = .ok value ∧
      verifyProof domain key value proof root = .ok () ∧
      SparseMerkleProofV1.decode domain proof.encode = .ok proof ∧
      proof.encode.length ≤ MAX_SMT_PROOF_BYTES := by
  subst hroot
  obtain ⟨value, proof, sib, hprove, hread, hvalue, hcarried, -, hclimb⟩ :=
    proveFrom_ok (Nat.zero_add _) hstored (placed_builtTree writeSets (pathDigest domain key))
      carried_empty fun _ _ _ => rfl
  refine ⟨value, proof, ?_, ?_, verifyProof_eq_ok.mpr ⟨hlength, hvalue, ?_⟩, hcarried.decode_encode⟩
  · rw [prove, pathKey_ok hlength, ok_bind, hprove]
  · rw [readValue, pathKey_ok hlength, ok_bind, hread]
  · rw [hcarried.siblings, verifyFrom_complete _ le_rfl hcarried.bits, hclimb]

theorem builtTree_eq {S : Set Bytes} (hfree : S.InjOn Crypto.blake3) {batches : List (List StateWrite)}
    {writeSets : List StateWriteSet}
    (hnew : List.Forall₂ (fun writes writeSet => StateWriteSet.new domain writes = .ok writeSet)
      batches writeSets) (hstrings : historyStrings domain ∅ batches ⊆ S) :
    builtTree writeSets = stateTree domain (batches.foldl StateMap.writeAll ∅) := by
  have hempty : stateTree domain ∅ = Slots.empty Leaf SMT_DEPTH := stateTree_empty
  rw [builtTree, ← hempty]
  generalize (∅ : StateMap) = m at hstrings
  induction hnew generalizing m with
  | nil => rfl
  | @cons writes writeSet batches writeSets hnew _ ih =>
    have hm : stateStrings domain m ⊆ S :=
      (stateStrings_history m (writes :: batches)).trans hstrings
    have happly : writeSet.apply (stateTree domain m) = stateTree domain (m.writeAll writes) :=
      update_stateTree hfree hnew (fun _ => key_known hm)
        fun w hw => hstrings (Or.inl (Or.inr ⟨w, hw, rfl⟩))
    rw [List.foldl_cons, List.foldl_cons, happly]
    exact ih _ fun x hx => hstrings (Or.inr hx)

end Complete

end

open Oregon.ContractState.Sample in
/-- The proof of a value that a write set has put, over what it has stored. -/
theorem stored_tree_proves_sample : ∃ final root value proof,
    applyBatches .evm nothing (emptyHashes .evm 0) [putOne] = .ok (final, root) ∧
    prove final ⟨.evm, root⟩ [1] = .ok (value, proof) ∧
    verifyProof .evm [1] value proof root = .ok () := by
  obtain ⟨writeSet, hnew⟩ := putOne_accepted
  obtain ⟨final, hrun, hstored⟩ := applyBatches_empty free putOne_history nothing_honest
    (by simpa using putOne_accepted)
  have hbuilt : builtTree [writeSet] = _ := builtTree_eq free (.cons hnew .nil) putOne_history
  obtain ⟨value, proof, hprove, -, hverify, -⟩ :=
    stored_tree_proves (congrArg (Slots.hash (digest .evm) 0) hbuilt) (hbuilt ▸ hstored)
      (show ([1] : Bytes).length ≤ MAX_STATE_KEY_BYTES by decide)
  exact ⟨final, _, value, proof, hrun, hprove, hverify⟩

end Oregon.ContractState
