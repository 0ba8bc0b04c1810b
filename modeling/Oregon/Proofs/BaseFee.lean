import Oregon.Sanity.Utxo
import Oregon.Spec.BaseFee

/-! The base fee moves with the weight of the parent block: by no more than its own fraction,
upwards always, and never out of its bounds. -/

namespace Oregon.Resources

open Lib

namespace FeeParametersV1

variable (p : FeeParametersV1)

def InRange (fee : ℕ) : Prop := p.minBaseFee ≤ fee ∧ fee ≤ p.maxBaseFee

/-- The part of a fee that a weight at some distance from the target moves it by. -/
def fraction (fee distance : ℕ) : ℕ := fee * distance / (p.targetWeight * p.adjustmentDenominator)

/-- The fee after a block, without the machine's integers. -/
def moved (fee weight : ℕ) : ℕ :=
  if p.targetWeight < weight then
    min (fee + max (p.fraction fee (weight - p.targetWeight)) 1) p.maxBaseFee
  else max (fee - p.fraction fee (p.targetWeight - weight)) p.minBaseFee

variable {p} {fee fee' weight weight' distance distance' : ℕ}

theorem divisor_pos : 0 < p.targetWeight * p.adjustmentDenominator :=
  Nat.mul_pos (Nat.pos_of_ne_zero p.target_pos) (by have := p.denominator_le; omega)

theorem fraction_mono (hfee : fee ≤ fee') (hdistance : distance ≤ distance') :
    p.fraction fee distance ≤ p.fraction fee' distance' :=
  Nat.div_le_div_right (Nat.mul_le_mul hfee hdistance)

theorem fraction_le (fee : ℕ) (h : distance ≤ p.targetWeight) :
    p.fraction fee distance ≤ fee / p.adjustmentDenominator := by
  calc p.fraction fee distance ≤ p.fraction fee p.targetWeight := fraction_mono le_rfl h
    _ = fee / p.adjustmentDenominator := by
      rw [fraction, Nat.mul_comm fee]
      exact Nat.mul_div_mul_left _ _ (Nat.pos_of_ne_zero p.target_pos)

theorem fraction_slope (h : distance ≤ p.targetWeight) (hfee : fee ≤ fee') :
    p.fraction fee' distance ≤ p.fraction fee distance + (fee' - fee) := by
  have hden : distance ≤ p.targetWeight * p.adjustmentDenominator :=
    h.trans (Nat.le_mul_of_pos_right _ (by have := p.denominator_le; omega))
  rw [fraction, fraction, ← Nat.add_mul_div_right _ _ p.divisor_pos]
  apply Nat.div_le_div_right
  calc fee' * distance = fee * distance + (fee' - fee) * distance := by
        rw [← Nat.add_mul, Nat.add_sub_cancel' hfee]
    _ ≤ fee * distance + (fee' - fee) * (p.targetWeight * p.adjustmentDenominator) := by gcongr

theorem moved_target : p.InRange fee → p.moved fee p.targetWeight = fee := by
  intro h
  rw [moved, if_neg (Nat.lt_irrefl _), Nat.sub_self, fraction, Nat.mul_zero, Nat.zero_div,
    Nat.sub_zero, max_eq_left h.1]

theorem moved_inRange (h : p.InRange fee) : p.InRange (p.moved fee weight) := by
  have hmin := h.1
  have hmax := h.2
  rw [moved]
  split_ifs
  · constructor <;> omega
  · constructor <;> omega

theorem moved_mono_fee (hfee : fee ≤ fee') :
    p.moved fee weight ≤ p.moved fee' weight := by
  rw [moved, moved]
  split_ifs with habove
  · have := fraction_mono (p := p) hfee (le_refl (weight - p.targetWeight))
    omega
  · have := fraction_slope (p := p) (Nat.sub_le p.targetWeight weight) hfee
    omega

theorem moved_mono_weight (h : p.InRange fee) (hweight : weight ≤ weight') :
    p.moved fee weight ≤ p.moved fee weight' := by
  have hmin := h.1
  have hmax := h.2
  rw [moved, moved]
  split_ifs with hlow hhigh hhigh
  · have := fraction_mono (p := p) (le_refl fee) (Nat.sub_le_sub_right hweight p.targetWeight)
    omega
  · omega
  · omega
  · have := fraction_mono (p := p) (le_refl fee) (Nat.sub_le_sub_left hweight p.targetWeight)
    omega

/-- The fee moves by its fraction at most, and by one at least on the way up. -/
theorem moved_change (h : p.InRange fee) (hweight : weight ≤ p.blockWeightLimit) :
    p.moved fee weight ≤ fee + max 1 (fee / p.adjustmentDenominator) ∧
      fee ≤ p.moved fee weight + max 1 (fee / p.adjustmentDenominator) := by
  have hmin := h.1
  have hmax := h.2
  grind [blockWeightLimit, moved, fraction_le]

theorem moved_above (h : p.InRange fee) (hweight : p.targetWeight < weight) :
    fee < p.moved fee weight ∨ fee = p.maxBaseFee := by
  have hmax := h.2
  rw [moved, if_pos hweight]
  omega

theorem moved_below (h : p.InRange fee) (hweight : weight < p.targetWeight) :
    p.moved fee weight ≤ fee := by
  have hmin := h.1
  rw [moved, if_neg (by omega)]
  omega

theorem InRange.lt (h : p.InRange fee) : fee < 2 ^ 63 :=
  lt_of_le_of_lt (h.2.trans p.max_le) (by decide)

/-- The products of the source fit in `u128` and the quotient in `u64`. -/
theorem narrow_fraction (h : p.InRange fee) (hdistance : distance ≤ p.targetWeight) :
    narrowU64 (mulU128 fee distance / mulU128 p.targetWeight p.adjustmentDenominator) =
      .ok (p.fraction fee distance) := by
  have hfee := h.lt
  have hlimit := p.limit_lt
  have hle := fraction_le fee hdistance
  have hself := Nat.div_le_self fee p.adjustmentDenominator
  rw [mulU128_eq (by omega) (by omega), mulU128_eq (by omega) p.denominator_lt]
  exact if_pos (show p.fraction fee distance < 2 ^ 64 by omega)

theorem narrow_sum (h : p.InRange fee) (hdistance : distance ≤ p.targetWeight) :
    narrowU64 ((fee + max (p.fraction fee distance) 1) % 2 ^ 128) =
      .ok (fee + max (p.fraction fee distance) 1) := by
  have hfee := h.lt
  have hle := fraction_le fee hdistance
  have hself := Nat.div_le_self fee p.adjustmentDenominator
  rw [Nat.mod_eq_of_lt (by omega), narrowU64, if_pos (by omega)]

theorem nextBaseFee_eq (h : p.InRange fee) (hweight : weight ≤ p.blockWeightLimit) :
    nextBaseFee p fee weight = .ok (p.moved fee weight) := by
  have hlimit : ¬ p.blockWeightLimit < weight := Nat.not_lt.mpr hweight
  rw [nextBaseFee, if_neg (not_not_intro ⟨h.1, h.2⟩), if_neg hlimit]
  by_cases htarget : weight = p.targetWeight
  · rw [if_pos htarget, htarget, moved_target h]
  · rw [if_neg htarget]
    by_cases habove : p.targetWeight < weight
    · have hdistance : weight - p.targetWeight ≤ p.targetWeight := by
        rw [blockWeightLimit] at hweight
        omega
      simp only [max_eq_left habove.le, min_eq_right habove.le, narrow_fraction h hdistance, ok_bind,
        if_pos habove, narrow_sum h hdistance, moved]
      rfl
    · have hbelow : weight ≤ p.targetWeight := Nat.not_lt.mp habove
      simp only [max_eq_right hbelow, min_eq_left hbelow,
        narrow_fraction h (Nat.sub_le p.targetWeight weight), ok_bind, if_neg habove, moved]
      rfl

end FeeParametersV1

/-- The budget of a block after attempts to include transactions of some weights. -/
def BlockWeightBudget.attempt (budget : BlockWeightBudget) : List ℕ → BlockWeightBudget
  | [] => budget
  | weight :: weights => ((budget.includeWeight weight).toOption.getD budget).attempt weights

theorem attempt_within {budget : BlockWeightBudget} (h : budget.consumed ≤ budget.limit)
    (weights : List ℕ) : (budget.attempt weights).limit = budget.limit ∧
      (budget.attempt weights).consumed ≤ budget.limit := by
  induction weights generalizing budget with
  | nil => exact ⟨rfl, h⟩
  | cons weight weights ih =>
    rw [BlockWeightBudget.attempt, BlockWeightBudget.includeWeight]
    split_ifs with hweight hwide hover
    · exact ih h
    · exact ih h
    · exact ih h
    · have hnext : { budget with consumed := budget.consumed + weight }.consumed ≤ budget.limit :=
        Nat.le_of_not_lt hover
      exact ih hnext

/-- The fee after a run of blocks, each built with a budget of its own. -/
def feeAfter (p : FeeParametersV1) (fee : ℕ) : List (List ℕ) → Except ResourceFeeError ℕ
  | [] => .ok fee
  | weights :: blocks => do
    let next ← nextBaseFee p fee ((BlockWeightBudget.new p).attempt weights).consumed
    feeAfter p next blocks

theorem feeAfter_inRange {p : FeeParametersV1} {fee : ℕ} (h : p.InRange fee)
    (blocks : List (List ℕ)) : ∃ last, feeAfter p fee blocks = .ok last ∧ p.InRange last := by
  induction blocks generalizing fee with
  | nil => exact ⟨fee, rfl, h⟩
  | cons weights blocks ih =>
    have hweight : ((BlockWeightBudget.new p).attempt weights).consumed ≤ p.blockWeightLimit :=
      (attempt_within (Nat.zero_le _) weights).2
    grind [FeeParametersV1.moved_inRange, feeAfter, FeeParametersV1.nextBaseFee_eq, ok_bind]

open FeeParametersV1 in
/-- For all parameters, fees in their range and weights up to the limit of a block: the next
fee exists and is in range, equals the fee at the target weight, differs from it by at most its
fraction or one, is greater above the target unless it is at the maximum, and not greater
below it; it grows with the fee and with the weight; and every run of blocks that a budget
admits keeps the fee in range. -/
theorem base_fee_is_controlled (p : FeeParametersV1) :
    (∀ fee weight, p.InRange fee → weight ≤ p.blockWeightLimit →
      ∃ next, nextBaseFee p fee weight = .ok next ∧ p.InRange next ∧
        (weight = p.targetWeight → next = fee) ∧
        (next ≤ fee + max 1 (fee / p.adjustmentDenominator) ∧
          fee ≤ next + max 1 (fee / p.adjustmentDenominator)) ∧
        (p.targetWeight < weight → fee < next ∨ fee = p.maxBaseFee) ∧
        (weight < p.targetWeight → next ≤ fee)) ∧
    (∀ fee fee' weight next next', p.InRange fee → p.InRange fee' → fee ≤ fee' →
      nextBaseFee p fee weight = .ok next → nextBaseFee p fee' weight = .ok next' → next ≤ next') ∧
    (∀ fee weight weight' next next', p.InRange fee → weight ≤ weight' →
      nextBaseFee p fee weight = .ok next → nextBaseFee p fee weight' = .ok next' → next ≤ next') ∧
    ∀ fee blocks, p.InRange fee → ∃ last, feeAfter p fee blocks = .ok last ∧ p.InRange last := by
  have heq : ∀ {fee weight next}, p.InRange fee → nextBaseFee p fee weight = .ok next →
      next = p.moved fee weight := by
    intro fee weight next h hnext
    by_cases hweight : weight ≤ p.blockWeightLimit
    · exact Except.ok.inj (hnext.symm.trans (nextBaseFee_eq h hweight))
    · rw [nextBaseFee, if_neg (not_not_intro ⟨h.1, h.2⟩), if_pos (Nat.lt_of_not_le hweight)] at hnext
      cases hnext
  refine ⟨fun fee weight h hweight => ?_, fun fee fee' weight next next' h h' hle hn hn' => ?_,
    fun fee weight weight' next next' h hle hn hn' => ?_, fun fee blocks h => feeAfter_inRange h blocks⟩
  · refine ⟨_, nextBaseFee_eq h hweight, moved_inRange h, ?_, moved_change h hweight, moved_above h,
      moved_below h⟩
    rintro rfl
    exact moved_target h
  · rw [heq h hn, heq h' hn']
    exact moved_mono_fee hle
  · rw [heq h hn, heq h hn']
    exact moved_mono_weight h hle

namespace Sample

/-- Parameters with a target of 1000 and a denominator of 8. -/
def parameters : FeeParametersV1 where
  targetWeight := 1000
  maxTransactionWeight := 500
  adjustmentDenominator := 8
  minBaseFee := 10
  maxBaseFee := 1000
  target_pos := by decide
  limit_lt := by decide
  transaction_pos := by decide
  transaction_le := by decide
  denominator_le := by decide
  denominator_lt := by decide
  min_pos := by decide
  min_le := by decide
  max_le := by decide

end Sample

/-- A full block raises a fee of 80 by an eighth. -/
theorem base_fee_is_controlled_full :
    FeeParametersV1.new 1 1000 500 8 10 1000 = .ok Sample.parameters ∧
      ∃ next, nextBaseFee Sample.parameters 80 2000 = .ok next ∧ 80 < next ∧ next ≤ 90 := by
  refine ⟨rfl, ?_⟩
  obtain ⟨next, hnext, -, -, hchange, habove, -⟩ :=
    (base_fee_is_controlled Sample.parameters).1 80 2000 ⟨by decide, by decide⟩ (by decide)
  exact ⟨next, hnext, (habove (by decide)).resolve_right (by decide), hchange.1⟩

end Oregon.Resources
