import Oregon.Lib.Maps
import Oregon.Spec.Utxo

/-! What the functions of the UTXO set do when they return, and where their errors
come from. A transaction moves entries: the outpoints it spends go, its outputs
come; a block is a sequence of such moves with the coinbase last. -/

namespace Oregon

open Lib
open Std (ExtTreeMap)

/-- `spent` is taken out of `s`, `created` put in, and `s'` is what remains. -/
structure Moves (s : UtxoState) (spent : List OutPoint) (created : List (OutPoint × UtxoEntry))
    (s' : UtxoState) : Prop where
  nodup : spent.Nodup
  present : ∀ o ∈ spent, o ∈ s.entries
  keys : (created.map Prod.fst).Nodup
  fresh : ∀ e ∈ created, e.1 ∉ s.entries
  result : s'.entries = (spent.foldl (·.erase ·) s.entries).insertMany created

namespace Moves

variable {s s' : UtxoState} {spent : List OutPoint} {created : List (OutPoint × UtxoEntry)}

theorem get_of_notMem (h : Moves s spent created s') {o : OutPoint}
    (ho : o ∉ created.map Prod.fst) :
    s'.entries[o]? = if o ∈ spent then none else s.entries[o]? := by
  rw [h.result, lookup_insertMany_of_notMem ho, lookup_eraseAll]

theorem mem_or_created (h : Moves s spent created s') {o : OutPoint} (ho : o ∈ s'.entries) :
    o ∈ s.entries ∨ o ∈ created.map Prod.fst := by
  by_cases hc : o ∈ created.map Prod.fst
  · exact Or.inr hc
  · obtain ⟨e, he⟩ := (mem_iff_lookup _ o).mp ho
    rw [h.get_of_notMem hc] at he
    grind

theorem notMem_of_spent (h : Moves s spent created s') {o : OutPoint} (ho : o ∈ spent)
    (hc : o ∉ created.map Prod.fst) : o ∉ s'.entries := by
  rw [notMem_iff_lookup, h.get_of_notMem hc, if_pos ho]

end Moves

def UtxoEntry.units (e : UtxoEntry) : ℕ := e.output.value.baseUnits

/-- The value held at an outpoint, nothing where there is no entry. -/
def UtxoState.valueAt (s : UtxoState) (o : OutPoint) : ℕ :=
  ((s.get o).map UtxoEntry.units).getD 0

def UtxoState.total (s : UtxoState) : ℕ := mapSum UtxoEntry.units s.entries

theorem Moves.total_eq {s s' : UtxoState} {spent : List OutPoint}
    {created : List (OutPoint × UtxoEntry)} (h : Moves s spent created s') :
    s'.total + (spent.map s.valueAt).sum = s.total + (created.map fun e => e.2.units).sum := by
  have hspent := mapSum_eraseAll UtxoEntry.units (g := s.valueAt) h.nodup fun o ho => by
    obtain ⟨e, he⟩ := (mem_iff_lookup _ o).mp (h.present o ho)
    exact ⟨e, he, by simp [UtxoState.valueAt, UtxoState.get, he]⟩
  have hcreated := mapSum_insertMany UtxoEntry.units (m := spent.foldl (·.erase ·) s.entries)
    h.keys fun e he => by
      rw [lookup_eraseAll, (notMem_iff_lookup _ _).mp (h.fresh e he), ite_self]
  unfold UtxoState.total
  rw [h.result, hcreated]
  omega

theorem checkedAdd_eq_some {a b c : ℕ} : checkedAdd a b = some c ↔ a + b = c ∧ c < 2 ^ 64 := by
  unfold checkedAdd
  grind

theorem checkedSub_eq_some {a b c : ℕ} : checkedSub a b = some c ↔ b ≤ a ∧ a - b = c := by
  unfold checkedSub
  split_ifs with h <;> simp [h]

theorem checkedAdd_eq_none {a b : ℕ} : checkedAdd a b = none ↔ 2 ^ 64 ≤ a + b := by
  unfold checkedAdd
  split_ifs with h <;> simp <;> omega

theorem mulU128_eq {a b : ℕ} (ha : a < 2 ^ 64) (hb : b < 2 ^ 64) : mulU128 a b = a * b := by
  apply Nat.mod_eq_of_lt
  calc a * b < 2 ^ 64 * 2 ^ 64 := Nat.mul_lt_mul'' ha hb
    _ = 2 ^ 128 := by norm_num

def outputUnits (outputs : List TxOutput) : ℕ := (outputs.map fun o => o.value.baseUnits).sum

theorem sumOutputs_from {ε : Type} (e : ε) (outputs : List TxOutput) (sum : ℕ) :
    outputs.foldlM (fun sum output => orElse (checkedAdd sum output.value.baseUnits) e) sum =
      if sum + outputUnits outputs < 2 ^ 64 ∨ outputs = [] then .ok (sum + outputUnits outputs)
      else .error e := by
  induction outputs generalizing sum with
  | nil => simp [outputUnits, pure, Except.pure]
  | cons o outputs ih =>
    have hunits : outputUnits (o :: outputs) = o.value.baseUnits + outputUnits outputs := by
      simp [outputUnits]
    rw [List.foldlM_cons, hunits]
    by_cases h : sum + o.value.baseUnits < 2 ^ 64
    · rw [show checkedAdd sum o.value.baseUnits = some (sum + o.value.baseUnits) from
        checkedAdd_eq_some.mpr ⟨rfl, h⟩, orElse_some, ok_bind, ih, Nat.add_assoc]
      by_cases hnil : outputs = []
      · subst hnil
        simp only [outputUnits, List.map_nil, List.sum_nil, Nat.add_zero, h]
        simp
      · simp [hnil]
    · rw [checkedAdd_eq_none.mpr (by omega), orElse_none, error_bind, if_neg]
      simp
      omega

theorem sumOutputs_eq_ok {ε : Type} {e : ε} {outputs : List TxOutput} {sum : ℕ}
    (h : sumOutputs e outputs = .ok sum) : sum = outputUnits outputs := by
  rw [sumOutputs, sumOutputs_from] at h
  split_ifs at h
  simpa [eq_comm] using h

theorem sumOutputs_eq_error {ε : Type} {e e' : ε} {outputs : List TxOutput}
    (h : sumOutputs e outputs = .error e') : 2 ^ 64 ≤ outputUnits outputs := by
  rw [sumOutputs, sumOutputs_from] at h
  grind

namespace UtxoState

/-- The inputs scanned: their outpoints are new to `consumed`, present, mature and
authorized, and their values are added to the sum. -/
theorem scanInputs_ok {s : UtxoState} {tx : Transaction} {height : ℕ} {verifier : SpendVerifier}
    {index : ℕ} {inputs : List TxInput} {sum sum' : ℕ} {consumed consumed' : List OutPoint}
    (h : s.scanInputs tx height verifier index inputs sum consumed = .ok (sum', consumed')) :
    consumed' = consumed ++ inputs.map TxInput.outpoint ∧
    (consumed.Nodup → consumed'.Nodup) ∧
    (∀ i ∈ inputs, i.outpoint ∈ s.entries) ∧
    sum' = sum + (inputs.map fun i => s.valueAt i.outpoint).sum := by
  induction inputs generalizing index sum consumed with
  | nil =>
    obtain ⟨rfl, rfl⟩ := h
    simp
  | cons i inputs ih =>
    simp only [scanInputs, bind_eq_ok, ensure_eq_ok, orElse_eq_ok, exists_and_left,
      exists_const] at h
    obtain ⟨hnew, entry, hentry, -, -, -, _, hadd, hrest⟩ := h
    obtain ⟨rfl, -⟩ := checkedAdd_eq_some.mp hadd
    obtain ⟨hcons, hnodup, hpresent, htotal⟩ := ih hrest
    refine ⟨by simp [hcons], fun hn => hnodup ?_, ?_, ?_⟩
    · grind
    · intro j hj
      rcases List.mem_cons.mp hj with rfl | hj
      · exact (mem_iff_lookup _ _).mpr ⟨entry, hentry⟩
      · exact hpresent j hj
    · have hval : s.valueAt i.outpoint = entry.output.value.baseUnits := by
        simp [valueAt, hentry, UtxoEntry.units]
      grind

/-- An error of the scan is one of its own checks, the verifier's, or a sum of
values of distinct present outpoints that does not fit. -/
theorem scanInputs_error {s : UtxoState} {tx : Transaction} {height : ℕ}
    {verifier : SpendVerifier} {index : ℕ} {inputs : List TxInput} {sum : ℕ}
    {consumed : List OutPoint} {e : UtxoError} (hnodup : consumed.Nodup)
    (hpresent : ∀ o ∈ consumed, o ∈ s.entries) (hsum : sum = (consumed.map s.valueAt).sum)
    (h : s.scanInputs tx height verifier index inputs sum consumed = .error e) :
    (∃ o, e = .duplicateInput o) ∨ (∃ o, e = .missingUtxo o) ∨ e = .immatureCoinbase ∨
      (∃ k entry, verifier tx k entry = .error e) ∨
      (e = .amountOverflow ∧ ∃ ops : List OutPoint, ops.Nodup ∧ (∀ o ∈ ops, o ∈ s.entries) ∧
        2 ^ 64 ≤ (ops.map s.valueAt).sum) := by
  induction inputs generalizing index sum consumed with
  | nil => simp [scanInputs, pure, Except.pure] at h
  | cons i inputs ih =>
    simp only [scanInputs, bind_eq_error, ensure_eq_error, ensure_eq_ok, orElse_eq_error,
      orElse_eq_ok, exists_and_left, exists_const] at h
    rcases h with ⟨-, rfl⟩ | ⟨hnew, ⟨-, rfl⟩ | ⟨entry, hentry, ⟨-, rfl⟩ | ⟨-, hv | ⟨-, -, h⟩⟩⟩⟩
    · exact Or.inl ⟨_, rfl⟩
    · exact Or.inr (Or.inl ⟨_, rfl⟩)
    · exact Or.inr (Or.inr (Or.inl rfl))
    · exact Or.inr (Or.inr (Or.inr (Or.inl ⟨index, entry, hv⟩)))
    · have hval : s.valueAt i.outpoint = entry.output.value.baseUnits := by
        simp [valueAt, hentry, UtxoEntry.units]
      have hnodup' : (consumed ++ [i.outpoint]).Nodup :=
        List.nodup_append.mpr ⟨hnodup, List.nodup_singleton _, by
          rintro a ha b hb rfl
          exact hnew (List.mem_singleton.mp hb ▸ ha)⟩
      have hpresent' : ∀ o ∈ consumed ++ [i.outpoint], o ∈ s.entries := by
        intro o ho
        rcases List.mem_append.mp ho with ho | ho
        · exact hpresent o ho
        · exact (mem_iff_lookup _ _).mpr ⟨entry, List.mem_singleton.mp ho ▸ hentry⟩
      have hsum' : sum + entry.output.value.baseUnits =
          ((consumed ++ [i.outpoint]).map s.valueAt).sum := by
        simp [hsum, hval]
      rcases h with ⟨hover, rfl⟩ | ⟨_, hadd, h⟩
      · refine Or.inr (Or.inr (Or.inr (Or.inr ⟨rfl, _, hnodup', hpresent', ?_⟩)))
        rw [← hsum']
        exact checkedAdd_eq_none.mp hover
      · obtain ⟨rfl, -⟩ := checkedAdd_eq_some.mp hadd
        exact ih hnodup' hpresent' hsum' h

/-- Values at distinct present outpoints add up to at most the whole set. -/
theorem sum_valueAt_le {s : UtxoState} {ops : List OutPoint} (hn : ops.Nodup)
    (hp : ∀ o ∈ ops, o ∈ s.entries) : (ops.map s.valueAt).sum ≤ s.total := by
  have h := mapSum_eraseAll UtxoEntry.units (g := s.valueAt) hn fun o ho => by
    obtain ⟨e, he⟩ := (mem_iff_lookup _ o).mp (hp o ho)
    exact ⟨e, he, by simp [valueAt, get, he]⟩
  unfold total
  omega

end UtxoState

section

variable [Crypto]

/-- The entries a transaction's outputs become. -/
def createdBy (tx : Transaction) (height : ℕ) (isCoinbase : Bool) :
    List (OutPoint × UtxoEntry) :=
  tx.outputs.zipIdx.map fun p =>
    (⟨tx.txid, UInt32.ofNat p.2⟩, { output := p.1, creationHeight := height, isCoinbase })

theorem txid_of_createdBy {tx : Transaction} {height : ℕ} {isCoinbase : Bool} {o : OutPoint}
    (h : o ∈ (createdBy tx height isCoinbase).map Prod.fst) : o.txid = tx.txid := by
  simp only [createdBy, List.map_map, List.mem_map, Function.comp_apply] at h
  obtain ⟨p, -, rfl⟩ := h
  rfl

theorem units_createdBy (tx : Transaction) (height : ℕ) (isCoinbase : Bool) :
    ((createdBy tx height isCoinbase).map fun e => e.2.units).sum = outputUnits tx.outputs := by
  have hmap : (createdBy tx height isCoinbase).map (fun e => e.2.units) =
      (tx.outputs.zipIdx.map Prod.fst).map fun o => o.value.baseUnits := by
    rw [createdBy, List.map_map, List.map_map]
    rfl
  rw [hmap, List.zipIdx_map_fst]
  rfl

theorem nodup_createdBy {tx : Transaction} (height : ℕ) (isCoinbase : Bool)
    (hlen : tx.outputs.length ≤ 2 ^ 32) : ((createdBy tx height isCoinbase).map Prod.fst).Nodup := by
  have hmap : (createdBy tx height isCoinbase).map Prod.fst =
      (List.range tx.outputs.length).map fun i => (⟨tx.txid, UInt32.ofNat i⟩ : OutPoint) := by
    rw [createdBy, List.map_map, List.range_eq_range', ← List.zipIdx_map_snd 0 tx.outputs,
      List.map_map]
    rfl
  rw [hmap]
  refine List.Nodup.map_on ?_ List.nodup_range
  intro i hi j hj heq
  have hi' := List.mem_range.mp hi
  have hj' := List.mem_range.mp hj
  have h32 := congrArg UInt32.toNat (OutPoint.mk.inj heq).2
  grind [UInt32.toNat_ofNat_of_lt']

namespace UtxoState

theorem createOutputs_ok {s : UtxoState} {tx : Transaction} {height : ℕ} {isCoinbase : Bool}
    {created : List (OutPoint × UtxoEntry)}
    (h : s.createOutputs tx height isCoinbase = .ok created) :
    created = createdBy tx height isCoinbase ∧ (created.map Prod.fst).Nodup ∧
      ∀ e ∈ created, e.1 ∉ s.entries := by
  obtain ⟨rfl, hall⟩ := mapM_ok_spec (P := fun p => p.2 < 2 ^ 32 ∧
      (⟨tx.txid, UInt32.ofNat p.2⟩ : OutPoint) ∉ s.entries) (fun p b hb => by
    simp only [bind_eq_ok, ensure_eq_ok, exists_and_left, exists_const, pure_eq_ok] at hb
    exact ⟨⟨hb.1, hb.2.1⟩, hb.2.2.symm⟩) h
  refine ⟨rfl, nodup_createdBy height isCoinbase ?_, ?_⟩
  · by_contra hlen
    have hmem : (tx.outputs[2 ^ 32], 2 ^ 32) ∈ tx.outputs.zipIdx :=
      List.mk_mem_zipIdx_iff_getElem?.mpr (by simp)
    exact Nat.lt_irrefl _ (hall _ hmem).1
  · grind

theorem createOutputs_error {s : UtxoState} {tx : Transaction} {height : ℕ} {isCoinbase : Bool}
    {e : UtxoError} (h : s.createOutputs tx height isCoinbase = .error e) :
    e = .outputIndexOverflow ∨
      ∃ o, e = .outputCollision o ∧ o.txid = tx.txid ∧ o ∈ s.entries := by
  obtain ⟨p, -, hp⟩ := mapM_eq_error h
  simp only [bind_eq_error, ensure_eq_error, ensure_eq_ok, exists_and_left, exists_const, pure,
    Except.pure, reduceCtorEq, and_false, or_false, not_not] at hp
  grind

end UtxoState

/-- A normal transaction applied: its inputs move to its outputs, the rest is the fee. -/
structure NormalStep (height : ℕ) (s : UtxoState) (tx : Transaction) (s' : UtxoState) (fee : ℕ) :
    Prop where
  moves : Moves s (tx.inputs.map TxInput.outpoint) (createdBy tx height false) s'
  fee_eq : fee + outputUnits tx.outputs = ((tx.inputs.map TxInput.outpoint).map s.valueAt).sum

/-- Normal transactions applied in order, with the sum of their fees. -/
inductive NormalSteps (height : ℕ) : UtxoState → List Transaction → UtxoState → ℕ → Prop where
  | nil (s : UtxoState) : NormalSteps height s [] s 0
  | cons {s s₁ s' : UtxoState} {tx : Transaction} {txs : List Transaction} {fee fees : ℕ}
      (head : NormalStep height s tx s₁ fee) (tail : NormalSteps height s₁ txs s' fees) :
      NormalSteps height s (tx :: txs) s' (fee + fees)

namespace UtxoState

theorem applyNormalTransaction_ok {s s' : UtxoState} {tx : Transaction} {height fee : ℕ}
    {verifier : SpendVerifier}
    (h : s.applyNormalTransaction tx height verifier = .ok (s', fee)) :
    NormalStep height s tx s' fee := by
  simp only [applyNormalTransaction, bind_eq_ok, ensure_eq_ok, exists_and_left, exists_const,
    pure_eq_ok, Prod.exists, Prod.mk.injEq] at h
  obtain ⟨inputSum, consumed, hscan, outputSum, hout, hle, created, hcreated, rfl, rfl⟩ := h
  obtain ⟨rfl, hnodup, hpresent, hsum⟩ := scanInputs_ok hscan
  obtain ⟨rfl, hkeys, hfresh⟩ := createOutputs_ok hcreated
  refine ⟨⟨hnodup List.nodup_nil, ?_, hkeys, hfresh, rfl⟩, ?_⟩
  · simp_all
  · have hout' := sumOutputs_eq_ok hout
    have hmap : (tx.inputs.map TxInput.outpoint).map s.valueAt =
        tx.inputs.map fun i => s.valueAt i.outpoint := List.map_map
    rw [hmap, ← hout']
    omega

theorem applyTransactions_ok {positions : ExtTreeMap Hash256 ℕ} {height : ℕ}
    {verifier : SpendVerifier} {l : List (Transaction × ℕ)} {s s' : UtxoState} {total total' : ℕ}
    (h : applyTransactions positions height verifier l s total = .ok (s', total')) :
    ∃ fees, NormalSteps height s (l.map Prod.fst) s' fees ∧ total' = total + fees := by
  induction l generalizing s total with
  | nil =>
    simp only [applyTransactions, pure_eq_ok, Prod.mk.injEq] at h
    obtain ⟨rfl, rfl⟩ := h
    exact ⟨0, .nil s, rfl⟩
  | cons p l ih =>
    simp only [applyTransactions, bind_eq_ok, orElse_eq_ok, Prod.exists] at h
    obtain ⟨-, -, s₁, fee, happly, _, hadd, h⟩ := h
    obtain ⟨rfl, -⟩ := checkedAdd_eq_some.mp hadd
    obtain ⟨fees, hsteps, rfl⟩ := ih h
    exact ⟨fee + fees, .cons (applyNormalTransaction_ok happly) hsteps, by omega⟩

/-- Applying transactions fails at one of them, on the set the earlier ones left. -/
theorem applyTransactions_error {positions : ExtTreeMap Hash256 ℕ} {height : ℕ}
    {verifier : SpendVerifier} {l : List (Transaction × ℕ)} {s : UtxoState} {total : ℕ}
    {e : UtxoError} (h : applyTransactions positions height verifier l s total = .error e) :
    e = .invalidBlockOrder ∨
    ∃ done tx rest mid fees, l.map Prod.fst = done ++ tx :: rest ∧
      NormalSteps height s done mid fees ∧
      (mid.applyNormalTransaction tx height verifier = .error e ∨
        e = .amountOverflow ∧ ∃ s' fee, NormalStep height mid tx s' fee ∧
          2 ^ 64 ≤ total + (fees + fee)) := by
  induction l generalizing s total with
  | nil => simp [applyTransactions, pure, Except.pure] at h
  | cons p l ih =>
    obtain ⟨tx, index⟩ := p
    simp only [applyTransactions, bind_eq_error, orElse_eq_ok, orElse_eq_error, Prod.exists] at h
    rcases h with h | ⟨-, -, h | ⟨s₁, fee, happly, ⟨hover, rfl⟩ | ⟨_, hadd, h⟩⟩⟩
    · obtain ⟨i, -, hi⟩ := forM_eq_error h
      rw [ensure_eq_error] at hi
      exact Or.inl hi.2.symm
    · exact Or.inr ⟨[], tx, l.map Prod.fst, s, 0, rfl, .nil s, Or.inl h⟩
    · refine Or.inr ⟨[], tx, l.map Prod.fst, s, 0, rfl, .nil s, Or.inr ⟨rfl, s₁, fee,
        applyNormalTransaction_ok happly, ?_⟩⟩
      rw [Nat.zero_add]
      exact checkedAdd_eq_none.mp hover
    · obtain ⟨rfl, -⟩ := checkedAdd_eq_some.mp hadd
      rcases ih h with rfl | ⟨done, tx', rest, mid, fees, hl, hsteps, hfail⟩
      · exact Or.inl rfl
      · refine Or.inr ⟨tx :: done, tx', rest, mid, fee + fees, by simp [hl],
          .cons (applyNormalTransaction_ok happly) hsteps, ?_⟩
        grind

/-- A normal transaction's error is one of the scan's, an output sum that does not
fit, too little input, or a collision of its outputs. -/
theorem applyNormalTransaction_error {s : UtxoState} {tx : Transaction} {height : ℕ}
    {verifier : SpendVerifier} {e : UtxoError}
    (h : s.applyNormalTransaction tx height verifier = .error e) :
    s.scanInputs tx height verifier 0 tx.inputs 0 [] = .error e ∨
    (e = .amountOverflow ∧ 2 ^ 64 ≤ outputUnits tx.outputs) ∨ e = .outputValueExceedsInput ∨
    ((∀ i ∈ tx.inputs, i.outpoint ∈ s.entries) ∧ s.createOutputs tx height false = .error e) := by
  simp only [applyNormalTransaction, bind_eq_error, ensure_eq_ok, ensure_eq_error,
    exists_and_left, exists_const, pure, Except.pure, reduceCtorEq, and_false, or_false,
    Prod.exists] at h
  rcases h with h | ⟨_, _, hscan, h | ⟨_, -, ⟨-, rfl⟩ | ⟨-, h⟩⟩⟩
  · exact Or.inl h
  · refine Or.inr (Or.inl ⟨?_, sumOutputs_eq_error h⟩)
    rw [sumOutputs, sumOutputs_from] at h
    grind
  · exact Or.inr (Or.inr (Or.inl rfl))
  · exact Or.inr (Or.inr (Or.inr ⟨(scanInputs_ok hscan).2.2.1, h⟩))

end UtxoState

/-- The shape of a block whose skeleton has passed. -/
structure SkeletonOk (block : Block) (height : ℕ) (coinbase : Transaction)
    (normals : List Transaction) : Prop where
  transactions : block.transactions = coinbase :: normals
  height_ne : height ≠ 0
  size : block.encode.length ≤ MAX_BLOCK_BYTES
  root : transactionRoot block.transactions = .ok block.header.transactionRoot
  coinbaseForm : isCoinbaseForm coinbase = true
  coinbaseSize : coinbase.encode.length ≤ MAX_TRANSACTION_BYTES
  normal : ∀ tx ∈ normals, validateNormalTransactionSkeleton tx = .ok ()

theorem skeleton_ok {block : Block} {height : ℕ}
    (h : validateNonGenesisBlockSkeleton block height = .ok ()) :
    ∃ coinbase normals, SkeletonOk block height coinbase normals := by
  simp only [validateNonGenesisBlockSkeleton, bind_eq_ok, ensure_eq_ok, exists_and_left,
    exists_const, mapError_eq_ok, exists_unit] at h
  obtain ⟨hheight, hsize, hne, hsizes, _, hroot, rfl, hform, hnormal⟩ := h
  obtain ⟨coinbase, normals, htxs⟩ := List.exists_cons_of_ne_nil hne
  refine ⟨coinbase, normals, htxs, hheight, hsize, hroot, ?_, ?_, ?_⟩
  · simpa [htxs] using hform
  · rw [checkSizes, forM_eq_ok] at hsizes
    simpa using hsizes (coinbase, 0) (by simp [htxs])
  · intro tx htx
    rw [checkNormalTransactions, forM_eq_ok, htxs] at hnormal
    rw [← List.zipIdx_map_fst 1 normals] at htx
    obtain ⟨⟨tx, index⟩, hmem, rfl⟩ := List.mem_map.mp htx
    simpa using hnormal (tx, index) (by simpa using hmem)

omit [Crypto] in
theorem normalSkeleton_ok {tx : Transaction} (h : validateNormalTransactionSkeleton tx = .ok ()) :
    tx.encode.length ≤ MAX_TRANSACTION_BYTES ∧ tx.inputs ≠ [] ∧ tx.outputs ≠ [] ∧
      isCoinbaseForm tx = false := by
  simp only [validateNormalTransactionSkeleton, bind_eq_ok, ensure_eq_ok, exists_and_left,
    exists_const] at h
  exact ⟨h.1, h.2.1, h.2.2.1, h.2.2.2.1⟩

/-- A coinbase that has passed: its form, the height in its witness, and its claim. -/
structure CoinbaseOk (tx : Transaction) (height : ℕ) (fees : ℕ) : Prop where
  coinbaseForm : isCoinbaseForm tx = true
  height_ne : height ≠ 0
  witness : ∃ input, tx.inputs.head? = some input ∧ input.witness.head? = some (writeVarint height)
  claim : outputUnits tx.outputs ≤
    (if height = 1 then FOUNDER_ALLOCATION_BASE_UNITS else 0) + subsidyUnits height + fees

omit [Crypto] in
theorem fromBaseUnits_ok {value : ℕ} {amount : Amount} (h : Amount.fromBaseUnits value = .ok amount) :
    amount.baseUnits = value := by
  unfold Amount.fromBaseUnits at h
  grind

omit [Crypto] in
theorem validateCoinbase_ok {tx : Transaction} {height : ℕ} {fees : Amount}
    {params : ConsensusParams} (h : validateCoinbase tx height fees params = .ok ()) :
    CoinbaseOk tx height fees.baseUnits := by
  simp only [validateCoinbase, bind_eq_ok, ensure_eq_ok, exists_and_left, exists_const,
    orElse_eq_ok, blockSubsidy, mapError_eq_ok] at h
  obtain ⟨⟨hne, -, -, hform⟩, input, hinput, -, hwitness, miner, hminer, claim, hclaim,
    subsidy, hsubsidy, ceiling, hceiling, hle⟩ := h
  have hclaim' := sumOutputs_eq_ok hclaim
  have hsubsidy' := fromBaseUnits_ok hsubsidy
  obtain ⟨hceiling', -⟩ := checkedAdd_eq_some.mp hceiling
  refine ⟨hform, hne, ⟨input, hinput, hwitness⟩, ?_⟩
  unfold minerOutputs at hminer
  split_ifs at hminer ⊢ with hone
  · -- at height one the first output is the founder's and is not part of the claim
    simp only [bind_eq_ok, orElse_eq_ok, ensure_eq_ok, exists_and_left, exists_const,
      pure_eq_ok] at hminer
    obtain ⟨founder, hfounder, ⟨hvalue, -⟩, rfl⟩ := hminer
    obtain ⟨rest, hout⟩ : ∃ rest, tx.outputs = founder :: rest := by
      cases hcase : tx.outputs with
      | nil => simp [hcase] at hfounder
      | cons o rest => simp_all
    rw [hout, List.drop_one, List.tail_cons] at hclaim'
    rw [hout]
    simp only [outputUnits, List.map_cons, List.sum_cons] at hclaim' ⊢
    omega
  · rw [pure_eq_ok] at hminer
    subst hminer
    omega

/-- A connected block: its normal transactions in order, then the coinbase. -/
structure BlockSteps (block : Block) (height : ℕ) (s : UtxoState) (coinbase : Transaction)
    (normals : List Transaction) (mid : UtxoState) (fees : ℕ) (s' : UtxoState) : Prop where
  skeleton : SkeletonOk block height coinbase normals
  normal : NormalSteps height s normals mid fees
  coinbaseOk : CoinbaseOk coinbase height fees
  issue : Moves mid [] (createdBy coinbase height true) s'

theorem connectBlock_ok {s s' : UtxoState} {block : Block} {height : ℕ}
    {params : ConsensusParams} {verifier : SpendVerifier} {undo : BlockUndo}
    (h : s.connectBlock block height params verifier = .ok (s', undo)) :
    undo = UtxoState.undoBetween s s' ∧
      ∃ coinbase normals mid fees, BlockSteps block height s coinbase normals mid fees s' := by
  simp only [UtxoState.connectBlock, bind_eq_ok, mapError_eq_ok, orElse_eq_ok, exists_unit,
    pure_eq_ok, Prod.exists, Prod.mk.injEq] at h
  obtain ⟨hskel, positions, -, mid, fees, happly, amount, hamount, coinbase, hcoinbase, hvalid,
    final, hfinal, rfl, rfl⟩ := h
  obtain ⟨cb, normals, hok⟩ := skeleton_ok hskel
  have hcb : cb = coinbase := by simpa [hok.transactions] using hcoinbase
  subst hcb
  obtain ⟨_, hsteps, rfl⟩ := UtxoState.applyTransactions_ok happly
  have hnormals : (block.transactions.zipIdx.drop 1).map Prod.fst = normals := by
    simp [hok.transactions]
  rw [hnormals] at hsteps
  simp only [UtxoState.insertCoinbaseOutputs, bind_eq_ok, pure_eq_ok] at hfinal
  obtain ⟨created, hcreated, rfl⟩ := hfinal
  obtain ⟨rfl, hkeys, hfresh⟩ := UtxoState.createOutputs_ok hcreated
  refine ⟨rfl, cb, normals, mid, _, hok, hsteps, ?_, List.nodup_nil, by simp, hkeys, hfresh, rfl⟩
  have hfees := fromBaseUnits_ok hamount
  rw [Nat.zero_add] at hfees
  exact hfees ▸ validateCoinbase_ok hvalid

/-- Where an error of connecting a block comes from, apart from the block's own form:
from one of the normal transactions, the fee total, or the coinbase's outputs. -/
theorem connectBlock_error {s : UtxoState} {block : Block} {height : ℕ}
    {params : ConsensusParams} {verifier : SpendVerifier} {e : UtxoError}
    (h : s.connectBlock block height params verifier = .error e) :
    (∃ c, e = .consensus c) ∨ e = .invalidBlockOrder ∨
    ∃ coinbase normals, SkeletonOk block height coinbase normals ∧
      ((∃ done tx rest mid fees, normals = done ++ tx :: rest ∧
          NormalSteps height s done mid fees ∧
          (mid.applyNormalTransaction tx height verifier = .error e ∨
            e = .amountOverflow ∧ ∃ s' fee, NormalStep height mid tx s' fee ∧
              2 ^ 64 ≤ fees + fee)) ∨
        ∃ mid fees, NormalSteps height s normals mid fees ∧
          (e = .amountOverflow ∧ MAX_SUPPLY_BASE_UNITS < fees ∨
            CoinbaseOk coinbase height fees ∧
              mid.createOutputs coinbase height true = .error e)) := by
  simp only [UtxoState.connectBlock, bind_eq_error, mapError_eq_ok, mapError_eq_error,
    orElse_eq_ok, orElse_eq_error, exists_unit, pure, Except.pure, reduceCtorEq, and_false,
    exists_false, or_false, Prod.exists] at h
  rcases h with ⟨c, -, rfl⟩ | ⟨hskel, h⟩
  · exact Or.inl ⟨c, rfl⟩
  obtain ⟨cb, normals, hok⟩ := skeleton_ok hskel
  have hnormals : (block.transactions.zipIdx.drop 1).map Prod.fst = normals := by
    simp [hok.transactions]
  rcases h with h | ⟨positions, -, h | ⟨mid, fees, happly, h⟩⟩
  · obtain ⟨_, _, -, hp⟩ := foldlM_eq_error h
    simp only [bind_eq_error, ensure_eq_error, pure, Except.pure, reduceCtorEq, and_false,
      exists_false, or_false] at hp
    exact Or.inr (Or.inl hp.2.symm)
  · rcases UtxoState.applyTransactions_error h with rfl | ⟨done, tx, rest, mid, fees, hl, hs, hf⟩
    · exact Or.inr (Or.inl rfl)
    · grind
  · obtain ⟨feeSum, hsteps, rfl⟩ := UtxoState.applyTransactions_ok happly
    rw [hnormals] at hsteps
    rw [Nat.zero_add] at h
    rcases h with ⟨_, hover, rfl⟩ | ⟨amount, hamount, ⟨-, rfl⟩ | ⟨coinbase, hcoinbase,
      ⟨c, -, rfl⟩ | ⟨hvalid, h⟩⟩⟩
    · have hlt : MAX_SUPPLY_BASE_UNITS < feeSum := by grind [Amount.fromBaseUnits]
      exact Or.inr (Or.inr ⟨cb, normals, hok, Or.inr ⟨mid, _, hsteps, Or.inl ⟨rfl, hlt⟩⟩⟩)
    · exact Or.inl ⟨_, rfl⟩
    · exact Or.inl ⟨c, rfl⟩
    · have hcb : cb = coinbase := by simpa [hok.transactions] using hcoinbase
      subst hcb
      simp only [UtxoState.insertCoinbaseOutputs, bind_eq_error, pure, Except.pure,
        reduceCtorEq, and_false, exists_false, or_false] at h
      exact Or.inr (Or.inr ⟨cb, normals, hok, Or.inr ⟨mid, _, hsteps,
        Or.inr ⟨fromBaseUnits_ok hamount ▸ validateCoinbase_ok hvalid, h⟩⟩⟩)

end

end Oregon
