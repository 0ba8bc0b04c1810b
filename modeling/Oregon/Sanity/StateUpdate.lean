import Mathlib.Data.Nat.Bitwise
import Oregon.Lib.Maps
import Oregon.Sanity.StateTree

/-! Applying writes to a stored tree. The builder goes down both sides of a branch with
the writes that belong there; it returns the hash of the updated tree and has then
collected the nodes that this tree has and the old one may not have had. -/

namespace Oregon.ContractState

open Lib

/-- A source with nodes and values added to it. -/
def StateSource.extend (source : StateSource) (nodes : Std.ExtTreeMap Hash256 StateNode)
    (values : Std.ExtTreeMap Hash256 Bytes) : StateSource where
  getNode h :=
    match nodes[h]? with
    | some node => .ok (some node)
    | none => source.getNode h
  getValue h :=
    match values[h]? with
    | some value => .ok (some value)
    | none => source.getValue h

theorem extend_empty (source : StateSource) : source.extend ∅ ∅ = source := by
  simp [StateSource.extend]

theorem split_sorted {α : Type} {p : α → Bool} {l : List α}
    (h : l.Pairwise fun a b => p a = true → p b = true) :
    l.take (l.takeWhile fun a => !p a).length = l.filter (fun a => !p a) ∧
      l.drop (l.takeWhile fun a => !p a).length = l.filter p := by
  induction l with
  | nil => exact ⟨rfl, rfl⟩
  | cons a l ih =>
    obtain ⟨ha, hl⟩ := List.pairwise_cons.mp h
    cases hp : p a with
    | false => simp_all
    | true =>
      have hall : ∀ b ∈ l, p b = true := fun b hb => ha b hb hp
      simp only [List.takeWhile_cons, hp, Bool.not_true, Bool.false_eq_true, if_false,
        List.length_nil, List.take_zero, List.drop_zero, List.filter_cons, if_true]
      exact ⟨(List.filter_eq_nil_iff.mpr fun b hb => by simp [hall b hb]).symm,
        by rw [List.filter_eq_self.mpr hall]⟩

/-- Of two paths that agree above `d`, the smaller one turns left if they part there. -/
theorem bit_mono {p q : Hash256} {d : ℕ} (hlt : p < q) (hagree : ∀ i, i < d → bitOf p i = bitOf q i)
    (hp : bitOf p d = true) : bitOf q d = true := by
  by_contra hq
  have hd : d < 256 := by
    by_contra hge
    simp [bitOf, pathBitUnchecked, BitVec.getMsbD, hge] at hp
  have hbit : ∀ (r : Hash256) (i : ℕ), i < 256 → r.toNat.testBit (255 - i) = bitOf r i := by
    intro r i hi
    simp [bitOf, pathBitUnchecked, BitVec.getMsbD, hi, BitVec.getLsbD]
  refine absurd hlt (BitVec.not_lt.mpr (BitVec.le_def.mpr (Nat.le_of_lt ?_)))
  refine Nat.lt_of_testBit (255 - d) ?_ ?_ fun j hj => ?_
  · rw [hbit q d hd]
    simpa using hq
  · rw [hbit p d hd, hp]
  · rcases Nat.lt_or_ge j 256 with hlt256 | hge
    · have hpbit := hbit p (255 - j) (by omega)
      have hqbit := hbit q (255 - j) (by omega)
      rw [show 255 - (255 - j) = j by omega] at hpbit hqbit
      rw [hpbit, hqbit, hagree (255 - j) (by omega)]
    · have hsmall : ∀ r : Hash256, r.toNat.testBit j = false := fun r =>
        Nat.testBit_lt_two_pow (Nat.lt_of_lt_of_le r.isLt (Nat.pow_le_pow_right (by decide) hge))
      rw [hsmall, hsmall]

/-- What a prepared write puts at the end of its path. -/
def PreparedWrite.slot (w : PreparedWrite) : Hash256 × Option Leaf :=
  match w.value with
  | .put bytes _ => (w.path, some (w.path, bytes))
  | .delete => (w.path, none)

theorem PreparedWrite.slot_path (w : PreparedWrite) : w.slot.1 = w.path := by
  unfold slot
  split <;> rfl

theorem PreparedWrite.slot_placed (w : PreparedWrite) {l : Leaf} (h : w.slot.2 = some l) :
    l.1 = w.path := by
  unfold slot at h
  split at h <;> cases h
  rfl

theorem update_slots {n d : ℕ} (ws : List PreparedWrite) (t : Slots Leaf (n + 1)) :
    Slots.update bitOf d (ws.map PreparedWrite.slot) t =
      (Slots.update bitOf (d + 1)
        ((ws.filter fun w => !pathBitUnchecked w.path d).map PreparedWrite.slot) t.1,
       Slots.update bitOf (d + 1)
        ((ws.filter fun w => pathBitUnchecked w.path d).map PreparedWrite.slot) t.2) := by
  rw [Slots.update, List.filter_map, List.filter_map]
  simp only [Function.comp_def, PreparedWrite.slot_path]
  rfl

section

variable [Crypto] (domain : CommitmentDomainId) (S : Set Bytes)

/-- A source that has nothing else under the hash of a value. -/
def StateSource.Honest (source : StateSource) : Prop :=
  ∀ value, valueString domain value ∈ S →
    source.getValue (valueDigest domain value) = .ok none ∨
    source.getValue (valueDigest domain value) = .ok (some value)

/-- The node of an input that is not empty. -/
def inputNode : Input Leaf Hash256 → Option StateNode
  | .empty => none
  | .leaf (path, value) => some (.leaf path (valueDigest domain value))
  | .node depth left right => some (.branch depth left right)

/-- Everything in the builder stands under its own hash. -/
structure Faithful (b : TransitionBuilder) : Prop where
  nodes : ∀ (h : Hash256) (node : StateNode), b.nodes[h]? = some node →
    ∃ i ∈ known domain S, digest domain i = h ∧ inputNode domain i = some node
  values : ∀ (h : Hash256) (value : Bytes), b.values[h]? = some value →
    valueString domain value ∈ S ∧ valueDigest domain value = h

/-- What `source` has under known hashes, `source'` has too. -/
structure Carries (source source' : StateSource) : Prop where
  node : ∀ i ∈ known domain S, ∀ node, inputNode domain i = some node →
    source.getNode (digest domain i) = .ok (some node) →
    source'.getNode (digest domain i) = .ok (some node)
  value : ∀ value, valueString domain value ∈ S →
    source.getValue (valueDigest domain value) = .ok (some value) →
    source'.getValue (valueDigest domain value) = .ok (some value)

/-- A write whose value hash is that of its value. -/
def Hashed (w : PreparedWrite) : Prop :=
  ∀ bytes hash, w.value = .put bytes hash →
    hash = valueDigest domain bytes ∧ bytes.length ≤ MAX_STATE_VALUE_BYTES

variable {domain S} {source : StateSource}

theorem Stored.carry {source' : StateSource} (hc : Carries domain S source source') {n d : ℕ}
    {t : Slots Leaf n} (ht : Slots.inputs (digest domain) d t ⊆ known domain S)
    (h : Stored source domain d t) : Stored source' domain d t := by
  induction n generalizing d with
  | zero =>
    rintro path value rfl
    obtain ⟨hnode, hvalue, hlength⟩ := h path value rfl
    have hi : Input.leaf (path, value) ∈ known domain S := ht rfl
    exact ⟨hc.node _ hi _ rfl hnode, hc.value value (hi.1 (Or.inl rfl)) hvalue, hlength⟩
  | succ n ih =>
    rcases h with rfl | ⟨hnode, hleft, hright⟩
    · exact .empty _ _
    · exact Or.inr ⟨hc.node _ (ht (Slots.top_mem_inputs t)) _ rfl hnode,
        ih ((Slots.left_inputs t).trans ht) hleft, ih ((Slots.right_inputs t).trans ht) hright⟩

theorem Faithful.carries (hfree : S.InjOn Crypto.blake3) {b b' : TransitionBuilder}
    (hb : Faithful domain S b') (hnodes : ∀ h, h ∈ b.nodes → h ∈ b'.nodes)
    (hvalues : ∀ h, h ∈ b.values → h ∈ b'.values) :
    Carries domain S (source.extend b.nodes b.values) (source.extend b'.nodes b'.values) where
  node i hi node hnode h := by
    simp only [StateSource.extend] at h ⊢
    cases hfound : b'.nodes[digest domain i]? with
    | some node' =>
      obtain ⟨j, hj, hdigest, hnode'⟩ := hb.nodes _ _ hfound
      obtain rfl := digest_injOn hfree hj hi hdigest
      rw [Option.some.inj (hnode'.symm.trans hnode)]
    | none => grind
  value value hvalue h := by
    simp only [StateSource.extend] at h ⊢
    cases hfound : b'.values[valueDigest domain value]? with
    | some value' =>
      obtain ⟨hvalue', hdigest⟩ := hb.values _ _ hfound
      rw [valueDigest_inj hfree hvalue' hvalue hdigest]
    | none => grind

theorem Faithful.carries_source (hfree : S.InjOn Crypto.blake3) {b : TransitionBuilder}
    (hb : Faithful domain S b) : Carries domain S source (source.extend b.nodes b.values) := by
  have h : Carries domain S (source.extend ∅ ∅) (source.extend b.nodes b.values) :=
    hb.carries hfree (b := ⟨∅, ∅⟩) (by simp) (by simp)
  rwa [extend_empty] at h

/-- What applying writes does to the builder, when it turns the tree `t` into `t'`. -/
structure Applied (source : StateSource) (domain : CommitmentDomainId) (S : Set Bytes) {n : ℕ}
    (d : ℕ) (t t' : Slots Leaf n) (b b' : TransitionBuilder) : Prop where
  faithful : Faithful domain S b'
  nodes : ∀ h, h ∈ b.nodes → h ∈ b'.nodes
  values : ∀ h, h ∈ b.values → h ∈ b'.values
  stored : Stored (source.extend b'.nodes b'.values) domain d t'
  emitted : ∀ h, h ∈ b'.nodes → h ∈ b.nodes ∨ Slots.Occurs (digest domain) d t' h
  same : t' = t → b' = b

theorem Applied.refl (hfree : S.InjOn Crypto.blake3) {n d : ℕ} {t : Slots Leaf n}
    {b : TransitionBuilder} (hb : Faithful domain S b)
    (ht : Slots.inputs (digest domain) d t ⊆ known domain S) (h : Stored source domain d t) :
    Applied source domain S d t t b b :=
  ⟨hb, fun _ => id, fun _ => id, h.carry (hb.carries_source hfree) ht, fun _ => Or.inl, fun _ => rfl⟩

theorem Faithful.insert {b : TransitionBuilder} (hb : Faithful domain S b) {i : Input Leaf Hash256}
    {node : StateNode} (hi : i ∈ known domain S) (hnode : inputNode domain i = some node) :
    Faithful domain S { b with nodes := b.nodes.insert (digest domain i) node } where
  nodes h node' hfound := by
    rw [lookup_insert] at hfound
    split_ifs at hfound with hh
    · exact ⟨i, hi, hh, hnode.trans hfound⟩
    · exact hb.nodes h node' hfound
  values := hb.values

theorem recordValue_ok {b : TransitionBuilder} {bytes : Bytes} (hb : Faithful domain S b)
    (hhonest : source.Honest domain S) (hvalue : valueString domain bytes ∈ S)
    (hlength : bytes.length ≤ MAX_STATE_VALUE_BYTES) :
    ∃ b', recordValue source domain (valueDigest domain bytes) bytes b = .ok b' ∧
      Faithful domain S b' ∧ b'.nodes = b.nodes ∧ (∀ h, h ∈ b.values → h ∈ b'.values) ∧
      ((source.getValue (valueDigest domain bytes) = .ok (some bytes)) ∨
        valueDigest domain bytes ∈ b'.values) := by
  rcases hhonest bytes hvalue with hsource | hsource
  · refine ⟨{ b with values := b.values.insertIfNew (valueDigest domain bytes) bytes }, ?_,
      ⟨hb.nodes, fun h v hv => ?_⟩, rfl, fun h hh => ?_, Or.inr ?_⟩
    · rw [recordValue, hsource, ok_bind]
      rfl
    · simp only [Std.ExtTreeMap.getElem?_insertIfNew, Std.LawfulEqOrd.compare_eq_iff_eq] at hv
      split_ifs at hv with hnew
      · simp_all
      · exact hb.values h v hv
    · exact Std.ExtTreeMap.mem_insertIfNew.mpr (Or.inr hh)
    · exact Std.ExtTreeMap.mem_insertIfNew.mpr (Or.inl (by simp))
  · refine ⟨b, ?_, hb, rfl, fun _ => id, Or.inl hsource⟩
    rw [recordValue, hsource, ok_bind]
    simp [valueHash_ok hlength, ensure, ok_bind, pure, Except.pure]

variable (hfree : S.InjOn Crypto.blake3)
  (hempty : Slots.inputs (digest domain) 0 (Slots.empty Leaf SMT_DEPTH) ⊆ known domain S)

include hfree hempty

theorem oldLeaf_ok {path : Hash256} {t : Slots Leaf 0} (h : Stored source domain SMT_DEPTH t)
    (ht : Slots.inputs (digest domain) SMT_DEPTH t ⊆ known domain S)
    (hplaced : ∀ l : Leaf, t = some l → l.1 = path) :
    oldLeaf source domain (Slots.hash (digest domain) SMT_DEPTH t) path =
      .ok (Option.map (fun l => valueDigest domain l.2) t) := by
  have hhash := hash_eq_empty (digest_injOn hfree) hempty rfl ht
  rw [oldLeaf]
  split_ifs with hold
  · obtain rfl := hhash.mp hold
    rfl
  · cases t with
    | none => exact absurd (hhash.mpr rfl) hold
    | some l =>
      obtain rfl := hplaced l rfl
      obtain ⟨hleaf, hvalue⟩ := h.loadLeaf rfl
      rw [hleaf, ok_bind, hvalue, ok_bind]
      rfl

theorem applyLeaf_ok {w : PreparedWrite} {t t' : Slots Leaf 0} {b : TransitionBuilder}
    (hslot : w.slot.2 = t') (hhonest : source.Honest domain S)
    (h : Stored source domain SMT_DEPTH t)
    (ht : Slots.inputs (digest domain) SMT_DEPTH t ⊆ known domain S)
    (ht' : Slots.inputs (digest domain) SMT_DEPTH t' ⊆ known domain S)
    (hb : Faithful domain S b) (hw : Hashed domain w)
    (hplaced : ∀ l : Leaf, t = some l → l.1 = w.path) :
    ∃ b', applyLeaf source domain (Slots.hash (digest domain) SMT_DEPTH t) w b =
        .ok (Slots.hash (digest domain) SMT_DEPTH t', b') ∧
      Applied source domain S SMT_DEPTH t t' b b' := by
  rw [applyLeaf, oldLeaf_ok hfree hempty h ht hplaced, ok_bind]
  cases hvalue : w.value with
  | delete =>
    obtain rfl : none = t' := by simpa [PreparedWrite.slot, hvalue] using hslot
    cases t with
    | none => exact ⟨b, rfl, .refl hfree hb ht h⟩
    | some l =>
      refine ⟨b, ?_, hb, fun _ => id, fun _ => id, .empty 0 _, fun _ => Or.inl, by rintro ⟨⟩⟩
      simp only [Option.map_some, reduceCtorEq, if_false, emptyHashes_eq (Nat.add_zero SMT_DEPTH)]
      rfl
  | put bytes hash =>
    obtain rfl : some (w.path, bytes) = t' := by simpa [PreparedWrite.slot, hvalue] using hslot
    obtain ⟨rfl, hlength⟩ := hw bytes hash hvalue
    have hnew : Input.leaf (w.path, bytes) ∈ known domain S := ht' rfl
    have hbytes : valueString domain bytes ∈ S := hnew.1 (Or.inl rfl)
    by_cases hsame : t = some (w.path, bytes)
    · subst hsame
      exact ⟨b, by simp [pure, Except.pure], .refl hfree hb ht h⟩
    have hdiffer : Option.map (fun l => valueDigest domain l.2) t ≠ some (valueDigest domain bytes) := by
      intro heq
      obtain ⟨l, rfl, hl⟩ := Option.map_eq_some_iff.mp heq
      have hold : Input.leaf l ∈ known domain S := ht rfl
      have hv := valueDigest_inj hfree (hold.1 (Or.inl rfl)) hbytes hl
      exact hsame (congrArg some (Prod.ext (hplaced l rfl) hv))
    obtain ⟨b', hrecord, hb', hnodes, hvalues, hthere⟩ := recordValue_ok hb hhonest hbytes hlength
    have hfaithful : Faithful domain S { b' with
        nodes := b'.nodes.insert (digest domain (.leaf (w.path, bytes)))
          (.leaf w.path (valueDigest domain bytes)) } := hb'.insert hnew rfl
    refine ⟨_, ?_, hfaithful, fun k hk => ?_, hvalues, ?_, fun k hk => ?_,
      fun heq => absurd heq.symm hsame⟩
    · simp only [if_neg hdiffer, hrecord, ok_bind]
      rfl
    · exact Std.ExtTreeMap.mem_insert.mpr (Or.inr (hnodes ▸ hk))
    · rintro path value heq
      obtain ⟨rfl, rfl⟩ := Prod.mk.inj (Option.some.inj heq)
      refine ⟨?_, ?_, hlength⟩
      · have hfound : (b'.nodes.insert (digest domain (.leaf (w.path, bytes)))
          (.leaf w.path (valueDigest domain bytes)))[leafHash domain w.path
            (valueDigest domain bytes)]? = some (.leaf w.path (valueDigest domain bytes)) := by
          rw [lookup_insert]
          exact if_pos rfl
        simp only [StateSource.extend, hfound]
      · rcases hthere with hsource | hmem
        · exact (hfaithful.carries_source hfree).value bytes hbytes hsource
        · obtain ⟨value, hfound⟩ := (mem_iff_lookup _ _).mp hmem
          obtain ⟨hvalue', hdigest⟩ := hb'.values _ _ hfound
          obtain rfl := valueDigest_inj hfree hvalue' hbytes hdigest
          simp only [StateSource.extend, hfound]
    · rcases Std.ExtTreeMap.mem_insert.mp hk with hk | hk
      · exact Or.inr ⟨by rintro ⟨⟩, (Std.LawfulEqOrd.compare_eq_iff_eq.mp hk).symm⟩
      · exact Or.inl (hnodes ▸ hk)

/-- What a batch has to be for the subtree at depth `d`: sorted, all on the way to the
subtree, with right hashes, and the leaves that are there stand at their own paths. -/
structure Batch (domain : CommitmentDomainId) {n : ℕ} (d : ℕ) (t : Slots Leaf n)
    (ws : List PreparedWrite) : Prop where
  sorted : ws.Pairwise fun v w => v.path < w.path
  agree : ∀ v ∈ ws, ∀ w ∈ ws, ∀ i, i < d → bitOf v.path i = bitOf w.path i
  hashed : ∀ w ∈ ws, Hashed domain w
  placed : ∀ w ∈ ws, ∀ l : Leaf, Slots.get (bitOf w.path) d t = some l → l.1 = w.path

omit hfree hempty in
theorem Batch.side {n d : ℕ} {t : Slots Leaf (n + 1)} {ws : List PreparedWrite}
    (h : Batch domain d t ws) (b : Bool) {p : PreparedWrite → Bool}
    (hp : ∀ w, p w = true → bitOf w.path d = b) :
    Batch domain (d + 1) (if b then t.2 else t.1) (ws.filter p) where
  sorted := h.sorted.filter _
  agree v hv w hw i hi := by
    obtain ⟨hv, hpv⟩ := List.mem_filter.mp hv
    obtain ⟨hw, hpw⟩ := List.mem_filter.mp hw
    rcases Nat.lt_succ_iff_lt_or_eq.mp hi with hi | rfl
    · exact h.agree v hv w hw i hi
    · rw [hp v hpv, hp w hpw]
  hashed w hw := h.hashed w (List.mem_filter.mp hw).1
  placed w hw l hl := by
    obtain ⟨hw, hpw⟩ := List.mem_filter.mp hw
    refine h.placed w hw l ?_
    rw [Slots.get, hp w hpw]
    exact hl

omit hfree hempty in
theorem Batch.split {n d : ℕ} {t : Slots Leaf n} {ws : List PreparedWrite}
    (h : Batch domain d t ws) :
    ws.take (ws.takeWhile fun w => !pathBitUnchecked w.path d).length =
        ws.filter (fun w => !pathBitUnchecked w.path d) ∧
      ws.drop (ws.takeWhile fun w => !pathBitUnchecked w.path d).length =
        ws.filter fun w => pathBitUnchecked w.path d := by
  refine split_sorted (p := fun w : PreparedWrite => pathBitUnchecked w.path d) ?_
  refine h.sorted.imp_of_mem fun {v w} hv hw hlt => ?_
  exact bit_mono hlt (h.agree v hv w hw)

theorem oldChildren_ok {n d : ℕ} {t : Slots Leaf (n + 1)} (hd : d + (n + 1) = SMT_DEPTH)
    (h : Stored source domain d t)
    (ht : Slots.inputs (digest domain) d t ⊆ known domain S) :
    oldChildren source domain (Slots.hash (digest domain) d t) d =
      .ok (Slots.hash (digest domain) (d + 1) t.1, Slots.hash (digest domain) (d + 1) t.2) := by
  rw [oldChildren]
  split_ifs with hhash
  · obtain rfl := (hash_eq_empty (digest_injOn hfree) hempty hd ht).mp hhash
    rw [emptyHashes_eq (d := d + 1) (n := n) (by omega)]
    rfl
  · exact h.loadBranch hd hhash

/-- Both sides are applied; what the branch then is follows from the two new hashes. -/
theorem Applied.join {n d : ℕ} {t t' : Slots Leaf (n + 1)} {b b₁ b₂ : TransitionBuilder}
    (hd : d + (n + 1) = SMT_DEPTH) (h : Stored source domain d t)
    (ht : Slots.inputs (digest domain) d t ⊆ known domain S)
    (ht' : Slots.inputs (digest domain) d t' ⊆ known domain S)
    (hleft : Applied source domain S (d + 1) t.1 t'.1 b b₁)
    (hright : Applied source domain S (d + 1) t.2 t'.2 b₁ b₂) (hb : Faithful domain S b) :
    ∃ b', newBranch domain d (Slots.hash (digest domain) d t)
        (Slots.hash (digest domain) (d + 1) t.1) (Slots.hash (digest domain) (d + 1) t.2)
        (Slots.hash (digest domain) (d + 1) t'.1) (Slots.hash (digest domain) (d + 1) t'.2) b₂ =
        .ok (Slots.hash (digest domain) d t', b') ∧ Applied source domain S d t t' b b' := by
  have hinj : (known domain S).InjOn (digest domain) := digest_injOn hfree
  rw [newBranch]
  have hleft' := (Slots.left_inputs t').trans ht'
  have hright' := (Slots.right_inputs t').trans ht'
  split_ifs with hsame hgone
  · obtain rfl : t' = t := Prod.ext
      (Slots.hash_injective hinj hleft' ((Slots.left_inputs t).trans ht) hsame.1)
      (Slots.hash_injective hinj hright' ((Slots.right_inputs t).trans ht) hsame.2)
    obtain rfl : b₂ = b := (hright.same rfl).trans (hleft.same rfl)
    exact ⟨b₂, rfl, .refl hfree hb ht h⟩
  · obtain rfl : t' = Slots.empty Leaf (n + 1) := Prod.ext
      ((hash_eq_empty hinj hempty (by omega) hleft').mp hgone.1)
      ((hash_eq_empty hinj hempty (by omega) hright').mp hgone.2)
    refine ⟨b₂, by rw [emptyHashes_eq hd]; rfl, hright.faithful, fun k hk => hright.nodes k
      (hleft.nodes k hk), fun k hk => hright.values k (hleft.values k hk), .empty _ _,
      fun k hk => ?_, fun heq => absurd ⟨by rw [heq], by rw [heq]⟩ hsame⟩
    refine Or.inl ?_
    rcases hright.emitted k hk with hk | hoccurs
    · exact (hleft.emitted k hk).resolve_right Slots.not_occurs_empty
    · exact absurd hoccurs Slots.not_occurs_empty
  · simp only [hash_branch hd hgone, ok_bind]
    have hfaithful : Faithful domain S { b₂ with
        nodes := b₂.nodes.insert (Slots.hash (digest domain) d t')
          (.branch d (Slots.hash (digest domain) (d + 1) t'.1)
            (Slots.hash (digest domain) (d + 1) t'.2)) } :=
      hright.faithful.insert (ht' (Slots.top_mem_inputs t')) rfl
    have hgrow : ∀ k, k ∈ b₂.nodes → k ∈ b₂.nodes.insert (Slots.hash (digest domain) d t')
        (.branch d (Slots.hash (digest domain) (d + 1) t'.1)
          (Slots.hash (digest domain) (d + 1) t'.2)) :=
      fun k hk => Std.ExtTreeMap.mem_insert.mpr (Or.inr hk)
    refine ⟨_, rfl, hfaithful, fun k hk => hgrow k (hright.nodes k (hleft.nodes k hk)),
      fun k hk => hright.values k (hleft.values k hk), Or.inr ⟨?_, ?_, ?_⟩, fun k hk => ?_,
      fun heq => absurd ⟨by rw [heq], by rw [heq]⟩ hsame⟩
    · simp [StateSource.extend]
    · exact hleft.stored.carry (hfaithful.carries hfree (fun k hk => hgrow k (hright.nodes k hk))
        hright.values) hleft'
    · exact hright.stored.carry (hfaithful.carries hfree hgrow fun _ => id) hright'
    · rcases Std.ExtTreeMap.mem_insert.mp hk with hk | hk
      · refine Or.inr (Or.inl ⟨fun hgone' => hgone ?_, (Std.LawfulEqOrd.compare_eq_iff_eq.mp hk).symm⟩)
        subst hgone'
        rw [emptyHashes_eq (d := d + 1) (n := n) (by omega)]
        exact ⟨rfl, rfl⟩
      · rcases hright.emitted k hk with hk | hoccurs
        · exact (hleft.emitted k hk).imp_right fun hoccurs => Or.inr (Or.inl hoccurs)
        · exact Or.inr (Or.inr (Or.inr hoccurs))

omit hfree hempty in
theorem applySubtree_nil (n d : ℕ) (old : Hash256) (b : TransitionBuilder) :
    applySubtree source domain n d old [] b = .ok (old, b) := by
  cases n <;> rw [applySubtree] <;> rfl

theorem applySubtree_ok {n d : ℕ} {t : Slots Leaf n} {ws : List PreparedWrite}
    {b : TransitionBuilder} (hd : d + n = SMT_DEPTH) (hhonest : source.Honest domain S)
    (h : Stored source domain d t)
    (ht : Slots.inputs (digest domain) d t ⊆ known domain S)
    (ht' : Slots.inputs (digest domain) d (Slots.update bitOf d (ws.map PreparedWrite.slot) t) ⊆
      known domain S)
    (hb : Faithful domain S b) (hws : Batch domain d t ws) :
    ∃ b', applySubtree source domain n d (Slots.hash (digest domain) d t) ws b =
        .ok (Slots.hash (digest domain) d (Slots.update bitOf d (ws.map PreparedWrite.slot) t), b') ∧
      Applied source domain S d t (Slots.update bitOf d (ws.map PreparedWrite.slot) t) b b' := by
  induction n generalizing d ws b with
  | zero =>
    cases ws with
    | nil => exact ⟨b, applySubtree_nil .., .refl hfree hb ht h⟩
    | cons w ws =>
      obtain rfl : d = SMT_DEPTH := by omega
      exact applyLeaf_ok hfree hempty rfl hhonest h ht ht' hb
        (hws.hashed w (List.mem_cons_self ..)) (hws.placed w (List.mem_cons_self ..))
  | succ n ih =>
    cases ws with
    | nil =>
      rw [List.map_nil, Slots.update_nil]
      exact ⟨b, applySubtree_nil .., .refl hfree hb ht h⟩
    | cons w more =>
      generalize hall : w :: more = ws at *
      obtain ⟨htake, hdrop⟩ := hws.split
      rw [update_slots] at ht' ⊢
      obtain ⟨b₁, hrun₁, hleft⟩ := ih (d := d + 1) (by omega) h.sides.1
        ((Slots.left_inputs t).trans ht) ((Slots.left_inputs _).trans ht') hb
        (hws.side false fun w hw => by simpa using hw)
      obtain ⟨b₂, hrun₂, hright⟩ := ih (d := d + 1) (by omega) h.sides.2
        ((Slots.right_inputs t).trans ht) ((Slots.right_inputs _).trans ht') hleft.faithful
        (hws.side true fun w hw => by simpa using hw)
      obtain ⟨b', hjoin, happlied⟩ := hleft.join hfree hempty hd h ht ht' hright hb
      refine ⟨b', ?_, happlied⟩
      have hstart : ∀ {k : ℕ} {old : Hash256}, (if k = 0 then pure (old, b)
          else applySubtree source domain n (d + 1) old (ws.take k) b) =
          applySubtree source domain n (d + 1) old (ws.take k) b := by
        intro k old
        split_ifs with hk
        · rw [hk, List.take_zero, applySubtree_nil]
          rfl
        · rfl
      have hend : ∀ {k : ℕ} {old : Hash256}, (if k = ws.length then pure (old, b₁)
          else applySubtree source domain n (d + 1) old (ws.drop k) b₁) =
          applySubtree source domain n (d + 1) old (ws.drop k) b₁ := by
        intro k old
        split_ifs with hk
        · rw [hk, List.drop_length, applySubtree_nil]
          rfl
        · rfl
      rw [← hall, applySubtree, hall, oldChildren_ok hfree hempty hd h ht, ok_bind]
      grind [ok_bind]

end

end Oregon.ContractState
