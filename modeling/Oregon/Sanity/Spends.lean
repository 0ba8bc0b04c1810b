import Oregon.Sanity.Utxo

/-! When a transaction can be applied: its inputs must be there, mature and authorized, and pay
for its outputs, which must be new. Of a set of coins, only those at its inputs and
outputs matter. -/

namespace Oregon

open Lib

/-- The value at an outpoint, nothing where there is no coin. -/
def unitsOf (coins : OutPoint → Option UtxoEntry) (o : OutPoint) : ℕ :=
  ((coins o).map UtxoEntry.units).getD 0

/-- A transaction spends some coins, and leaves a fee. -/
structure Spends (coins : OutPoint → Option UtxoEntry) (tx : Transaction) (height : ℕ)
    (verifier : SpendVerifier) (fee : ℕ) : Prop where
  nodup : (tx.inputs.map TxInput.outpoint).Nodup
  inputs : ∀ i input, tx.inputs[i]? = some input → ∃ entry, coins input.outpoint = some entry ∧
    entry.isSpendableAt height = true ∧ verifier tx i entry = .ok ()
  bounded : ((tx.inputs.map TxInput.outpoint).map (unitsOf coins)).sum < 2 ^ 64
  fee_eq : fee + outputUnits tx.outputs = ((tx.inputs.map TxInput.outpoint).map (unitsOf coins)).sum

section

variable {coins coins' : OutPoint → Option UtxoEntry} {tx : Transaction} {height fee fee' : ℕ}
  {verifier verifier' : SpendVerifier}

theorem Spends.present (h : Spends coins tx height verifier fee) {o : OutPoint}
    (ho : o ∈ tx.inputs.map TxInput.outpoint) : ∃ entry, coins o = some entry := by
  obtain ⟨input, hinput, rfl⟩ := List.mem_map.mp ho
  obtain ⟨i, hi⟩ := List.getElem?_of_mem hinput
  obtain ⟨entry, hentry, -⟩ := h.inputs i input hi
  exact ⟨entry, hentry⟩

theorem units_congr (hsame : ∀ o ∈ tx.inputs.map TxInput.outpoint, coins o = coins' o) :
    (tx.inputs.map TxInput.outpoint).map (unitsOf coins) =
      (tx.inputs.map TxInput.outpoint).map (unitsOf coins') :=
  List.map_congr_left fun o ho => by rw [unitsOf, unitsOf, hsame o ho]

theorem Spends.congr (h : Spends coins tx height verifier fee)
    (hsame : ∀ o ∈ tx.inputs.map TxInput.outpoint, coins o = coins' o) :
    Spends coins' tx height verifier fee where
  nodup := h.nodup
  inputs i input hi := by
    rw [← hsame _ (List.mem_map_of_mem (List.mem_of_getElem? hi))]
    exact h.inputs i input hi
  bounded := units_congr hsame ▸ h.bounded
  fee_eq := units_congr hsame ▸ h.fee_eq

theorem Spends.fee_unique (h : Spends coins tx height verifier fee)
    (h' : Spends coins tx height verifier' fee') : fee = fee' := by
  have := h.fee_eq
  have := h'.fee_eq
  omega

theorem Spends.fee_lt (h : Spends coins tx height verifier fee) : fee < 2 ^ 64 := by
  have := h.fee_eq
  have := h.bounded
  omega

end

/-- The coin that an output of a transaction becomes. -/
def producedAt (tx : Transaction) (height : ℕ) (o : OutPoint) : Option UtxoEntry :=
  tx.outputs[o.index.toNat]?.map fun output => ⟨output, height, false⟩

section

variable [Crypto] {tx : Transaction} {height : ℕ} {o : OutPoint}

omit [Crypto] in
theorem producedAt_eq_some_iff :
    (∃ c, producedAt tx height o = some c) ↔ o.index.toNat < tx.outputs.length := by
  rw [producedAt, ← Option.isSome_iff_exists, Option.isSome_map]
  simp

theorem mem_createdBy_iff {c : UtxoEntry} (hlen : tx.outputs.length ≤ 2 ^ 32) :
    (o, c) ∈ createdBy tx height false ↔ o.txid = tx.txid ∧ producedAt tx height o = some c := by
  obtain ⟨txid, index⟩ := o
  rw [createdBy, List.mem_map, producedAt, Option.map_eq_some_iff]
  constructor
  · rintro ⟨⟨output, i⟩, hmem, heq⟩
    have hi : i < 2 ^ 32 := (List.snd_lt_of_mem_zipIdx hmem).trans_le hlen
    obtain ⟨⟨rfl, rfl⟩, rfl⟩ := heq
    refine ⟨rfl, output, ?_, rfl⟩
    grind [UInt32.toNat_ofNat_of_lt']
  · rintro ⟨rfl, output, houtput, rfl⟩
    exact ⟨(output, index.toNat), List.mk_mem_zipIdx_iff_getElem?.mpr houtput, by simp⟩

theorem notMem_createdBy (hlen : tx.outputs.length ≤ 2 ^ 32)
    (h : ¬ (o.txid = tx.txid ∧ o.index.toNat < tx.outputs.length)) :
    o ∉ (createdBy tx height false).map Prod.fst := by
  rintro hmem
  obtain ⟨⟨_, c⟩, hc, rfl⟩ := List.mem_map.mp hmem
  obtain ⟨htxid, hproduced⟩ := (mem_createdBy_iff hlen).mp hc
  exact h ⟨htxid, producedAt_eq_some_iff.mp ⟨c, hproduced⟩⟩

theorem createdBy_new_iff {s : UtxoState} (hlen : tx.outputs.length ≤ 2 ^ 32) :
    (∀ e ∈ createdBy tx height false, e.1 ∉ s.entries) ↔
      ∀ o : OutPoint, o.txid = tx.txid → o.index.toNat < tx.outputs.length → s.get o = none := by
  constructor
  · intro h o htxid hlt
    obtain ⟨c, hc⟩ : ∃ c, producedAt tx height o = some c := producedAt_eq_some_iff.mpr hlt
    exact (notMem_iff_lookup _ _).mp (h (o, c) ((mem_createdBy_iff hlen).mpr ⟨htxid, hc⟩))
  · rintro h ⟨o, c⟩ hmem
    obtain ⟨htxid, hc⟩ := (mem_createdBy_iff hlen).mp hmem
    exact (notMem_iff_lookup _ _).mpr (h o htxid (producedAt_eq_some_iff.mp ⟨c, hc⟩))

end

namespace UtxoState

variable {s s' : UtxoState} {tx : Transaction} {height fee : ℕ} {verifier : SpendVerifier}

/-- The inputs from a position on are there, mature and authorized. -/
def Authorized (s : UtxoState) (tx : Transaction) (height : ℕ) (verifier : SpendVerifier)
    (index : ℕ) (inputs : List TxInput) : Prop :=
  ∀ i input, inputs[i]? = some input → ∃ entry, s.get input.outpoint = some entry ∧
    entry.isSpendableAt height = true ∧ verifier tx (index + i) entry = .ok ()

theorem authorized_cons {index : ℕ} {a : TxInput} {inputs : List TxInput} :
    s.Authorized tx height verifier index (a :: inputs) ↔
      (∃ entry, s.get a.outpoint = some entry ∧ entry.isSpendableAt height = true ∧
        verifier tx index entry = .ok ()) ∧
      s.Authorized tx height verifier (index + 1) inputs := by
  constructor
  · intro h
    refine ⟨h 0 a rfl, fun i input hi => ?_⟩
    rw [Nat.add_assoc, Nat.add_comm 1 i]
    exact h (i + 1) input hi
  · rintro ⟨ha, h⟩ i input hi
    cases i with
    | zero => exact Option.some.inj hi ▸ ha
    | succ i =>
      rw [← Nat.add_assoc, Nat.add_right_comm]
      exact h i input hi

theorem scanInputs_eq_ok {index : ℕ} {inputs : List TxInput} {sum sum' : ℕ}
    {consumed consumed' : List OutPoint} (hsum : sum < 2 ^ 64) :
    s.scanInputs tx height verifier index inputs sum consumed = .ok (sum', consumed') ↔
      ((inputs.map TxInput.outpoint).Nodup ∧ ∀ o ∈ inputs.map TxInput.outpoint, o ∉ consumed) ∧
      s.Authorized tx height verifier index inputs ∧ sum' < 2 ^ 64 ∧
      sum' = sum + ((inputs.map TxInput.outpoint).map (unitsOf s.get)).sum ∧
      consumed' = consumed ++ inputs.map TxInput.outpoint := by
  induction inputs generalizing index sum consumed with
  | nil =>
    simp only [scanInputs, pure_eq_ok, Prod.mk.injEq]
    constructor
    · rintro ⟨rfl, rfl⟩
      exact ⟨by simp, by simp [Authorized], hsum, by simp, by simp⟩
    · simp_all
  | cons a inputs ih =>
    simp only [scanInputs, bind_eq_ok, ensure_eq_ok, orElse_eq_ok, exists_and_left, exists_const,
      checkedAdd_eq_some, exists_unit, authorized_cons, List.map_cons, List.nodup_cons,
      List.sum_cons, List.forall_mem_cons]
    constructor
    · rintro ⟨hnew, entry, hentry, hmature, hverified, _, ⟨rfl, hlt⟩, hrest⟩
      obtain ⟨⟨hnodup, hdisjoint⟩, hauthorized, hlt', rfl, rfl⟩ := (ih hlt).mp hrest
      grind [unitsOf, UtxoEntry.units]
    · rintro ⟨⟨⟨ha, hnodup⟩, hnew, hdisjoint⟩, ⟨⟨entry, hentry, hmature, hverified⟩, hauthorized⟩,
        hlt', rfl, rfl⟩
      have hunits : unitsOf s.get a.outpoint = entry.output.value.baseUnits := by
        simp [unitsOf, hentry, UtxoEntry.units]
      grind

variable [Crypto]

theorem createOutputs_eq_ok {isCoinbase : Bool} {created : List (OutPoint × UtxoEntry)} :
    s.createOutputs tx height isCoinbase = .ok created ↔
      created = createdBy tx height isCoinbase ∧ tx.outputs.length ≤ 2 ^ 32 ∧
        ∀ e ∈ createdBy tx height isCoinbase, e.1 ∉ s.entries := by
  constructor
  · intro h
    obtain ⟨rfl, hall⟩ := mapM_ok_spec (P := fun p => p.2 < 2 ^ 32 ∧
        (⟨tx.txid, UInt32.ofNat p.2⟩ : OutPoint) ∉ s.entries) (fun p b hb => by
      simp only [bind_eq_ok, ensure_eq_ok, exists_and_left, exists_const, pure_eq_ok] at hb
      exact ⟨⟨hb.1, hb.2.1⟩, hb.2.2.symm⟩) h
    refine ⟨rfl, ?_, fun e he => ?_⟩
    · by_contra hlen
      have hmem : (tx.outputs[2 ^ 32], 2 ^ 32) ∈ tx.outputs.zipIdx :=
        List.mk_mem_zipIdx_iff_getElem?.mpr (by simp)
      exact Nat.lt_irrefl _ (hall _ hmem).1
    · obtain ⟨p, hp, rfl⟩ := List.mem_map.mp he
      exact (hall p hp).2
  · rintro ⟨rfl, hlen, hfresh⟩
    refine mapM_eq_map ?_
    rintro ⟨output, index⟩ hmem
    have hindex : index < 2 ^ 32 := by grind
    have hnew := hfresh _ (List.mem_map_of_mem hmem)
    dsimp only at hnew ⊢
    rw [ensure_ok hindex, ok_bind, ensure_ok hnew, ok_bind]
    rfl

/-- The set without some coins and with some others. -/
def moved (s : UtxoState) (spent : List OutPoint) (created : List (OutPoint × UtxoEntry)) :
    UtxoState :=
  ⟨(spent.foldl (·.erase ·) s.entries).insertMany created⟩

/-- A transaction is applied exactly when it spends coins of the set and its outputs are new. -/
theorem applyNormalTransaction_eq_ok :
    s.applyNormalTransaction tx height verifier = .ok (s', fee) ↔
      Spends s.get tx height verifier fee ∧ tx.outputs.length ≤ 2 ^ 32 ∧
      (∀ e ∈ createdBy tx height false, e.1 ∉ s.entries) ∧
      s' = s.moved (tx.inputs.map TxInput.outpoint) (createdBy tx height false) := by
  have hzero : (0 : ℕ) < 2 ^ 64 := by decide
  simp only [applyNormalTransaction, bind_eq_ok, ensure_eq_ok, exists_and_left, exists_const,
    pure_eq_ok, Prod.exists, Prod.mk.injEq, scanInputs_eq_ok hzero, createOutputs_eq_ok]
  constructor
  · rintro ⟨_, _, ⟨⟨hnodup, -⟩, hauthorized, hlt, rfl, rfl⟩, outputSum, hout, hle, _,
      ⟨rfl, hlen, hfresh⟩, rfl, rfl⟩
    obtain rfl := sumOutputs_eq_ok hout
    rw [Nat.zero_add] at hlt hle ⊢
    refine ⟨⟨hnodup, fun i input hi => ?_, hlt, Nat.sub_add_cancel hle⟩, hlen, hfresh, rfl⟩
    simpa using hauthorized i input hi
  · rintro ⟨hspends, hlen, hfresh, rfl⟩
    have hfee := hspends.fee_eq
    have hlt := hspends.bounded
    have hout : sumOutputs UtxoError.amountOverflow tx.outputs = .ok (outputUnits tx.outputs) := by
      rw [sumOutputs, sumOutputs_from, if_pos (Or.inl (by omega)), Nat.zero_add]
    refine ⟨_, _, ⟨⟨hspends.nodup, by simp⟩, fun i input hi => ?_, by omega, rfl, rfl⟩, _, hout,
      by omega, _, ⟨rfl, hlen, hfresh⟩, by rw [List.nil_append]; rfl, by omega⟩
    simpa using hspends.inputs i input hi

theorem get_moved {spent : List OutPoint} {o : OutPoint} (hlen : tx.outputs.length ≤ 2 ^ 32) :
    (s.moved spent (createdBy tx height false)).get o =
      if o.txid = tx.txid ∧ o.index.toNat < tx.outputs.length then producedAt tx height o
      else if o ∈ spent then none else s.get o := by
  split_ifs with hcreated hspent
  · obtain ⟨c, hc⟩ : ∃ c, producedAt tx height o = some c :=
      producedAt_eq_some_iff.mpr hcreated.2
    rw [hc]
    exact lookup_insertMany_of_mem (nodup_createdBy height false hlen)
      ((mem_createdBy_iff hlen).mpr ⟨hcreated.1, hc⟩)
  · rw [moved, get, lookup_insertMany_of_notMem (notMem_createdBy hlen hcreated), lookup_eraseAll,
      if_pos hspent]
  · rw [moved, get, lookup_insertMany_of_notMem (notMem_createdBy hlen hcreated), lookup_eraseAll,
      if_neg hspent]
    rfl

end UtxoState

end Oregon
