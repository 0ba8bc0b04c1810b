import Oregon.Sanity.Codec
import Oregon.Sanity.Sample

/-! No chain of blocks issues more than the schedule: a normal transaction keeps
the total but for its fee, and a coinbase adds at most the subsidy and the fees it
collects. The schedule itself is a geometric series cut off by the shift. -/

namespace Oregon

open Lib

section Schedule

/-- The subsidy of an era. -/
def eraUnits (era : ℕ) : ℕ := if 64 ≤ era then 0 else INITIAL_SUBSIDY_BASE_UNITS >>> era

theorem subsidyUnits_succ (n : ℕ) : subsidyUnits (n + 1) = eraUnits (n / HALVING_INTERVAL) := by
  simp [subsidyUnits, eraUnits]

theorem eraUnits_le (era : ℕ) : eraUnits era ≤ MAX_SUPPLY_BASE_UNITS := by
  unfold eraUnits
  split_ifs
  · exact Nat.zero_le _
  · rw [Nat.shiftRight_eq_div_pow]
    exact (Nat.div_le_self _ _).trans (by decide)

theorem blockSubsidy_units (height : ℕ) :
    (blockSubsidy height).map Amount.baseUnits = .ok (subsidyUnits height) := by
  have hle : subsidyUnits height ≤ MAX_SUPPLY_BASE_UNITS := by
    cases height with
    | zero => exact Nat.zero_le _
    | succ n => exact subsidyUnits_succ n ▸ eraUnits_le _
  rw [blockSubsidy, Amount.fromBaseUnits, dif_pos hle]
  rfl

theorem sum_whole_eras (eras : ℕ) :
    ∑ n ∈ Finset.range (HALVING_INTERVAL * eras), eraUnits (n / HALVING_INTERVAL) =
      HALVING_INTERVAL * ∑ e ∈ Finset.range eras, eraUnits e := by
  induction eras with
  | zero => simp
  | succ eras ih =>
    have hera : ∀ n ∈ Finset.range HALVING_INTERVAL,
        eraUnits ((HALVING_INTERVAL * eras + n) / HALVING_INTERVAL) = eraUnits eras := by
      intro n hn
      rw [Nat.mul_add_div (by decide), Nat.div_eq_of_lt (Finset.mem_range.mp hn), Nat.add_zero]
    rw [Nat.mul_succ, Finset.sum_range_add, ih, Finset.sum_congr rfl hera, Finset.sum_const,
      Finset.card_range, Finset.sum_range_succ, smul_eq_mul, Nat.mul_add]

theorem sum_eras_le (eras : ℕ) :
    HALVING_INTERVAL * ∑ e ∈ Finset.range (64 + eras), eraUnits e =
      SCHEDULED_MINING_ISSUANCE_BASE_UNITS := by
  have hlate : ∀ e ∈ Finset.range eras, eraUnits (64 + e) = 0 := fun e _ => by simp [eraUnits]
  rw [Finset.sum_range_add, Finset.sum_eq_zero hlate, Nat.add_zero]
  decide +kernel

/-- The subsidies of any number of heights stay within the scheduled issuance. -/
theorem sum_subsidies_le (height : ℕ) :
    ∑ i ∈ Finset.range height, subsidyUnits (i + 1) ≤ SCHEDULED_MINING_ISSUANCE_BASE_UNITS := by
  have hle : height ≤ HALVING_INTERVAL * (64 + height) := by
    unfold HALVING_INTERVAL
    omega
  calc ∑ i ∈ Finset.range height, subsidyUnits (i + 1)
      = ∑ i ∈ Finset.range height, eraUnits (i / HALVING_INTERVAL) :=
        Finset.sum_congr rfl fun i _ => subsidyUnits_succ i
    _ ≤ ∑ i ∈ Finset.range (HALVING_INTERVAL * (64 + height)), eraUnits (i / HALVING_INTERVAL) :=
        Finset.sum_le_sum_of_subset (Finset.range_mono hle)
    _ = SCHEDULED_MINING_ISSUANCE_BASE_UNITS := by rw [sum_whole_eras, sum_eras_le]

end Schedule

section Sizes

theorem nine_le_output_encode (o : TxOutput) : 9 ≤ o.encode.length := by
  grind [writeVarint_length_pos, TxOutput.encode, encodeItem, leBytes_length]

theorem outputs_length_le (tx : Transaction) : 9 * tx.outputs.length ≤ tx.encode.length := by
  have hout : 9 * tx.outputs.length ≤ (tx.outputs.flatMap TxOutput.encode).length := by
    induction tx.outputs with
    | nil => simp
    | cons o outputs ih =>
      have := nine_le_output_encode o
      grind
  simp only [Transaction.encode, List.length_append]
  omega

theorem outputUnits_le (outputs : List TxOutput) :
    outputUnits outputs ≤ outputs.length * MAX_SUPPLY_BASE_UNITS := by
  unfold outputUnits
  induction outputs with
  | nil => simp
  | cons o outputs ih =>
    have := o.value.le_max
    rw [List.map_cons, List.sum_cons, List.length_cons, Nat.succ_mul]
    omega

/-- A transaction within the size limit has too few outputs to overflow their sum. -/
theorem outputUnits_lt {tx : Transaction} (h : tx.encode.length ≤ MAX_TRANSACTION_BYTES) :
    outputUnits tx.outputs < 2 ^ 64 := by
  have hlen := outputs_length_le tx
  grind [outputUnits_le, MAX_TRANSACTION_BYTES, MAX_SUPPLY_BASE_UNITS, BASE_UNITS_PER_OREG]

end Sizes

section

variable [Crypto]

theorem NormalStep.total_eq {height : ℕ} {s s' : UtxoState} {tx : Transaction} {fee : ℕ}
    (h : NormalStep height s tx s' fee) : s'.total + fee = s.total := by
  have hmoves := h.moves.total_eq
  have hfee := h.fee_eq
  rw [units_createdBy] at hmoves
  omega

theorem NormalSteps.total_eq {height : ℕ} {s s' : UtxoState} {txs : List Transaction} {fees : ℕ}
    (h : NormalSteps height s txs s' fees) : s'.total + fees = s.total := by
  induction h with
  | nil s => rfl
  | cons head _ ih =>
    have := head.total_eq
    omega

theorem BlockSteps.total_le {block : Block} {height : ℕ} {s mid s' : UtxoState}
    {coinbase : Transaction} {normals : List Transaction} {fees : ℕ}
    (h : BlockSteps block height s coinbase normals mid fees s') :
    s'.total ≤ s.total + (if height = 1 then FOUNDER_ALLOCATION_BASE_UNITS else 0) +
      subsidyUnits height := by
  have hnormal := h.normal.total_eq
  have hissue := h.issue.total_eq
  have hclaim := h.coinbaseOk.claim
  rw [units_createdBy, List.map_nil, List.sum_nil] at hissue
  omega

/-- What heights up to `height` may have issued. -/
def issuedBy (height : ℕ) : ℕ :=
  (if height = 0 then 0 else FOUNDER_ALLOCATION_BASE_UNITS) +
    ∑ i ∈ Finset.range height, subsidyUnits (i + 1)

omit [Crypto] in
theorem issuedBy_succ (height : ℕ) :
    issuedBy (height + 1) = issuedBy height +
      (if height + 1 = 1 then FOUNDER_ALLOCATION_BASE_UNITS else 0) + subsidyUnits (height + 1) := by
  unfold issuedBy
  rw [Finset.sum_range_succ]
  grind

omit [Crypto] in
theorem issuedBy_le (height : ℕ) : issuedBy height ≤ SCHEDULED_TOTAL_WITH_FOUNDER_BASE_UNITS := by
  have := sum_subsidies_le height
  unfold issuedBy SCHEDULED_TOTAL_WITH_FOUNDER_BASE_UNITS
  split_ifs <;> omega

variable {params : ConsensusParams} {verifier : SpendVerifier}

theorem replay_total_le {chain : List Block} {s : UtxoState}
    (h : replay params verifier chain = .ok s) : s.total ≤ issuedBy chain.length := by
  refine replay_inv (fun chain s => s.total ≤ issuedBy chain.length) ?_ ?_ h
  · simp [UtxoState.total, UtxoState.new]
  · intro chain s block s' undo _ ih hconnect
    obtain ⟨-, coinbase, normals, mid, fees, hsteps⟩ := connectBlock_ok hconnect
    have hle := hsteps.total_le
    rw [List.length_append, List.length_singleton, issuedBy_succ]
    omega

/-- A normal transaction on a set within the schedule overflows nothing of its own. -/
theorem applyNormalTransaction_no_overflow {s : UtxoState} {tx : Transaction} {height : ℕ}
    (htotal : s.total < 2 ^ 64) (hsize : tx.encode.length ≤ MAX_TRANSACTION_BYTES)
    (h : s.applyNormalTransaction tx height verifier = .error .amountOverflow) :
    ∃ k entry, verifier tx k entry = .error .amountOverflow := by
  rcases UtxoState.applyNormalTransaction_error h with h | ⟨-, hout⟩ | h | ⟨-, h⟩
  · rcases UtxoState.scanInputs_error List.nodup_nil (by simp) rfl h with
      ⟨_, h⟩ | ⟨_, h⟩ | h | hv | ⟨-, ops, hnodup, hpresent, hover⟩
    · cases h
    · cases h
    · cases h
    · exact hv
    · have := UtxoState.sum_valueAt_le hnodup hpresent
      omega
  · have := outputUnits_lt hsize
    omega
  · cases h
  · rcases UtxoState.createOutputs_error h with h | ⟨_, h, -⟩ <;> cases h

/-- On a replayed set the amounts of a block never overflow: an overflow error can
only be the verifier's own. -/
theorem connectBlock_no_overflow {chain : List Block} {s : UtxoState} {block : Block} {height : ℕ}
    (hs : replay params verifier chain = .ok s)
    (h : s.connectBlock block height params verifier = .error .amountOverflow) :
    ∃ tx ∈ block.transactions, ∃ k entry, verifier tx k entry = .error .amountOverflow := by
  have htotal : s.total ≤ MAX_SUPPLY_BASE_UNITS :=
    (replay_total_le hs).trans ((issuedBy_le _).trans (by decide))
  have hmax : MAX_SUPPLY_BASE_UNITS < 2 ^ 64 := by decide
  rcases connectBlock_error h with ⟨_, h⟩ | h | ⟨coinbase, normals, hok, hfail⟩
  · cases h
  · cases h
  rcases hfail with ⟨done, tx, rest, mid, fees, hnormals, hsteps, happly | ⟨-, s', fee, hstep, hover⟩⟩
    | ⟨mid, fees, hsteps, ⟨-, hover⟩ | ⟨-, hcreate⟩⟩
  · have hmem : tx ∈ normals := by simp [hnormals]
    have hmid := hsteps.total_eq
    obtain ⟨k, entry, hv⟩ := applyNormalTransaction_no_overflow (by omega)
      (normalSkeleton_ok (hok.normal tx hmem)).1 happly
    exact ⟨tx, by rw [hok.transactions]; exact List.mem_cons_of_mem _ hmem, k, entry, hv⟩
  · have hmid := hsteps.total_eq
    have hlast := hstep.total_eq
    omega
  · have hmid := hsteps.total_eq
    omega
  · rcases UtxoState.createOutputs_error hcreate with h | ⟨_, h, -⟩ <;> cases h

/-- The value of all entries after any chain of connected blocks is within the
founder's allocation and the subsidies of its heights, and so within the schedule
and the maximum supply. No sum of amounts overflows in the next block. -/
theorem supply_within_schedule {chain : List Block} {s : UtxoState}
    (h : replay params verifier chain = .ok s) :
    (∀ i, (blockSubsidy i).map Amount.baseUnits = .ok (subsidyUnits i)) ∧
    s.total ≤ FOUNDER_ALLOCATION_BASE_UNITS + ∑ i ∈ Finset.Icc 1 chain.length, subsidyUnits i ∧
    FOUNDER_ALLOCATION_BASE_UNITS + ∑ i ∈ Finset.Icc 1 chain.length, subsidyUnits i ≤
      SCHEDULED_TOTAL_WITH_FOUNDER_BASE_UNITS ∧
    SCHEDULED_TOTAL_WITH_FOUNDER_BASE_UNITS ≤ MAX_SUPPLY_BASE_UNITS ∧
    ∀ block : Block,
      s.connectBlock block (chain.length + 1) params verifier = .error .amountOverflow →
      ∃ tx ∈ block.transactions, ∃ k entry, verifier tx k entry = .error .amountOverflow := by
  have hsum : ∑ i ∈ Finset.Icc 1 chain.length, subsidyUnits i =
      ∑ i ∈ Finset.range chain.length, subsidyUnits (i + 1) := by
    rw [Finset.range_eq_Ico, Finset.sum_Ico_add' subsidyUnits 0 chain.length 1]
    rfl
  have hissue := sum_subsidies_le chain.length
  have htotal := replay_total_le h
  rw [hsum]
  refine ⟨blockSubsidy_units, htotal.trans ?_, ?_, by decide, fun block hb => connectBlock_no_overflow h hb⟩
  · unfold issuedBy
    split_ifs <;> omega
  · unfold SCHEDULED_TOTAL_WITH_FOUNDER_BASE_UNITS
    omega

end

open Sample in
theorem supply_within_schedule_sample :
    replay params verifier [first, second] = .ok afterTwo ∧
    afterTwo.total ≤ FOUNDER_ALLOCATION_BASE_UNITS + ∑ i ∈ Finset.Icc 1 2, subsidyUnits i := by
  have h : replay params verifier [first, second] = .ok afterTwo := by decide +kernel
  exact ⟨h, (supply_within_schedule h).2.1⟩

end Oregon
