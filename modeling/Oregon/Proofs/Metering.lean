import Mathlib.Algebra.Order.Floor.Div
import Oregon.Sanity.EffectStack

/-! The weight of a transaction does not depend on how its work is charged. Rounding up is
applied to the units of a domain so far and charged as a difference, so the differences
telescope: a meter that still runs has spent what the totals cost, and a meter is
exhausted as soon as the totals are too much. -/

namespace Oregon.Execution

open Lib

/-- A charge on the meter. -/
inductive MeterCall where
  | charge (domain : ResourceDomain) (units : ℕ)
  | chargeCommon (weight : ℕ)

def WeightMeter.call (meter : WeightMeter) : MeterCall → Except ResourceError Unit × WeightMeter
  | .charge domain units => meter.charge domain units
  | .chargeCommon weight => meter.chargeCommon weight

def WeightMeter.after (meter : WeightMeter) (calls : List MeterCall) : WeightMeter :=
  calls.foldl (fun meter call => (meter.call call).2) meter

theorem WeightMeter.after_concat (meter : WeightMeter) (calls : List MeterCall) (call : MeterCall) :
    meter.after (calls ++ [call]) = ((meter.after calls).call call).2 := by
  rw [WeightMeter.after, List.foldl_append]
  rfl

def MeterCall.units (domain : ResourceDomain) : MeterCall → ℕ
  | .charge d units => if d = domain then units else 0
  | .chargeCommon _ => 0

def MeterCall.common : MeterCall → ℕ
  | .charge _ _ => 0
  | .chargeCommon weight => weight

/-- The units of a domain over all calls. -/
def totalUnits (calls : List MeterCall) (domain : ResourceDomain) : ℕ :=
  (calls.map (MeterCall.units domain)).sum

/-- The common weight over all calls. -/
def totalCommon (calls : List MeterCall) : ℕ := (calls.map MeterCall.common).sum

/-- The weight of some units, rounded up. -/
def WeightRatio.ceiling (ratio : WeightRatio) (units : ℕ) : ℕ :=
  units * ratio.numerator ⌈/⌉ ratio.denominator

/-- What the calls cost together, on top of the intrinsic weight. -/
def totalWeight (schedule : MeterScheduleV1) (intrinsicWeight : ℕ) (calls : List MeterCall) : ℕ :=
  intrinsicWeight + totalCommon calls + (schedule.native.ceiling (totalUnits calls .native) +
    schedule.evm.ceiling (totalUnits calls .evm) + schedule.wasm.ceiling (totalUnits calls .wasm))

/-- The totals are too much: units or a weight that do not fit, or more than the budget. -/
def Overrun (schedule : MeterScheduleV1) (maxWeight intrinsicWeight : ℕ) (calls : List MeterCall) :
    Prop :=
  (∃ domain, U64_MAX < totalUnits calls domain) ∨
  (∃ domain, U64_MAX < (schedule.ratio domain).ceiling (totalUnits calls domain)) ∨
  maxWeight < totalWeight schedule intrinsicWeight calls

section

variable {calls : List MeterCall}

theorem totalUnits_concat (call : MeterCall) (domain : ResourceDomain) :
    totalUnits (calls ++ [call]) domain = totalUnits calls domain + call.units domain := by
  simp [totalUnits]

theorem totalCommon_concat (call : MeterCall) :
    totalCommon (calls ++ [call]) = totalCommon calls + call.common := by
  simp [totalCommon]

theorem WeightRatio.denominator_pos (ratio : WeightRatio) : 0 < ratio.denominator :=
  Nat.pos_of_ne_zero (not_or.mp ratio.valid).2

theorem WeightRatio.ceiling_mono (ratio : WeightRatio) : Monotone ratio.ceiling := fun _ _ hle =>
  (gc_mul_ceilDiv ratio.denominator_pos).monotone_l (Nat.mul_le_mul_right _ hle)

/-- Dividing, and adding one for a remainder, rounds up. -/
theorem WeightRatio.ceiling_eq (ratio : WeightRatio) (units : ℕ) : ratio.ceiling units =
    units * ratio.numerator / ratio.denominator +
      (if units * ratio.numerator % ratio.denominator ≠ 0 then 1 else 0) := by
  have hpos := ratio.denominator_pos
  rw [WeightRatio.ceiling, Nat.ceilDiv_eq_add_pred_div]
  generalize units * ratio.numerator = product
  have hlt := Nat.mod_lt product hpos
  have hsplit : product + ratio.denominator - 1 = ratio.denominator * (product / ratio.denominator) +
      (product % ratio.denominator + ratio.denominator - 1) := by
    have := Nat.div_add_mod product ratio.denominator
    omega
  rw [hsplit, Nat.mul_add_div hpos, Nat.add_right_inj]
  split_ifs with hrem
  · exact Nat.div_eq_of_lt_le (by omega) (by omega)
  · exact Nat.div_eq_of_lt (by omega)

theorem normalizedWeight_eq (ratio : WeightRatio) (units : ℕ) : ratio.normalizedWeight units =
    if ratio.ceiling units ≤ U64_MAX then .ok (ratio.ceiling units) else .error .weightOverflow := by
  rw [WeightRatio.normalizedWeight, ← WeightRatio.ceiling_eq, narrow]
  split_ifs <;> rfl

/-- The parameters of a meter, and what its calls so far have made of it. -/
structure Tallied (schedule : MeterScheduleV1) (maxWeight intrinsicWeight : ℕ)
    (calls : List MeterCall) (m : WeightMeter) : Prop where
  schedule_eq : m.schedule = schedule
  budget : m.maxWeight = maxWeight
  spent : m.exhausted = true →
    m.consumed = maxWeight ∧ Overrun schedule maxWeight intrinsicWeight calls
  running : m.exhausted = false → (∀ domain, m.counters domain = totalUnits calls domain) ∧
    m.consumed = totalWeight schedule intrinsicWeight calls ∧
    ¬ Overrun schedule maxWeight intrinsicWeight calls

variable {schedule : MeterScheduleV1} {maxWeight intrinsicWeight : ℕ} {m : WeightMeter}

theorem totalWeight_congr {calls' : List MeterCall} (hunits : totalUnits calls' = totalUnits calls)
    (hcommon : totalCommon calls' = totalCommon calls) :
    totalWeight schedule intrinsicWeight calls' = totalWeight schedule intrinsicWeight calls := by
  rw [totalWeight, totalWeight, hunits, hcommon]

theorem overrun_congr {calls' : List MeterCall} (hunits : totalUnits calls' = totalUnits calls)
    (hcommon : totalCommon calls' = totalCommon calls) :
    Overrun schedule maxWeight intrinsicWeight calls' ↔
      Overrun schedule maxWeight intrinsicWeight calls := by
  rw [Overrun, Overrun, hunits, totalWeight_congr hunits hcommon]

theorem Overrun.concat (h : Overrun schedule maxWeight intrinsicWeight calls) (call : MeterCall) :
    Overrun schedule maxWeight intrinsicWeight (calls ++ [call]) := by
  have hunits : ∀ domain, totalUnits calls domain ≤ totalUnits (calls ++ [call]) domain := fun domain => by
    rw [totalUnits_concat]
    exact Nat.le_add_right ..
  have hceiling : ∀ domain (ratio : WeightRatio), ratio.ceiling (totalUnits calls domain) ≤
      ratio.ceiling (totalUnits (calls ++ [call]) domain) := fun domain ratio =>
    ratio.ceiling_mono (hunits domain)
  rcases h with ⟨domain, h⟩ | ⟨domain, h⟩ | h
  · exact Or.inl ⟨domain, h.trans_le (hunits domain)⟩
  · exact Or.inr (Or.inl ⟨domain, h.trans_le (hceiling domain _)⟩)
  · refine Or.inr (Or.inr (h.trans_le ?_))
    grind [totalWeight, totalCommon_concat]

/-- A failed charge has spent the budget on totals that are too much. -/
theorem Tallied.exhaust (h : Tallied schedule maxWeight intrinsicWeight calls m)
    {calls' : List MeterCall} (hover : Overrun schedule maxWeight intrinsicWeight calls') :
    Tallied schedule maxWeight intrinsicWeight calls' m.exhaust.2 where
  schedule_eq := h.schedule_eq
  budget := h.budget
  spent _ := ⟨h.budget, hover⟩
  running := by rintro ⟨⟩

theorem Tallied.stays (h : Tallied schedule maxWeight intrinsicWeight calls m)
    (hm : m.exhausted = true) (call : MeterCall) :
    Tallied schedule maxWeight intrinsicWeight (calls ++ [call]) m where
  schedule_eq := h.schedule_eq
  budget := h.budget
  spent _ := ⟨(h.spent hm).1, (h.spent hm).2.concat call⟩
  running hrunning := by
    rw [hm] at hrunning
    cases hrunning

theorem Tallied.chargeCommon (h : Tallied schedule maxWeight intrinsicWeight calls m) (weight : ℕ) :
    Tallied schedule maxWeight intrinsicWeight (calls ++ [.chargeCommon weight])
      (m.chargeCommon weight).2 := by
  unfold WeightMeter.chargeCommon
  split_ifs with hm
  · exact h.stays hm _
  rw [Bool.not_eq_true] at hm
  obtain ⟨hcounters, hconsumed, hfits⟩ := h.running hm
  have hunits : ∀ domain, totalUnits (calls ++ [.chargeCommon weight]) domain =
      totalUnits calls domain := fun domain => totalUnits_concat _ domain
  have htotal : totalWeight schedule intrinsicWeight (calls ++ [.chargeCommon weight]) =
      m.consumed + weight := by
    have hcommon : totalCommon (calls ++ [.chargeCommon weight]) = totalCommon calls + weight :=
      totalCommon_concat _
    grind [totalWeight]
  have hle := m.consumed_le
  have hbudget := h.budget
  unfold WeightMeter.spend
  split_ifs with hover
  · exact h.exhaust (Or.inr (Or.inr (by omega)))
  · refine ⟨h.schedule_eq, h.budget, fun hexhausted => ?_, fun _ => ⟨?_, htotal.symm, ?_⟩⟩
    · rw [hm] at hexhausted
      cases hexhausted
    · exact fun domain => (hcounters domain).trans (hunits domain).symm
    · rintro (⟨domain, hd⟩ | ⟨domain, hd⟩ | htoo)
      · exact hfits (Or.inl ⟨domain, hunits domain ▸ hd⟩)
      · exact hfits (Or.inr (Or.inl ⟨domain, hunits domain ▸ hd⟩))
      · omega

theorem delta_eq {domain : ResourceDomain} (units : ℕ)
    (hold : (m.schedule.ratio domain).ceiling (m.counters domain) ≤ U64_MAX) :
    m.delta domain units =
      if m.counters domain + units ≤ U64_MAX ∧
          (m.schedule.ratio domain).ceiling (m.counters domain + units) ≤ U64_MAX then
        some (m.counters domain + units,
          (m.schedule.ratio domain).ceiling (m.counters domain + units) -
            (m.schedule.ratio domain).ceiling (m.counters domain))
      else none := by
  have hmono := (m.schedule.ratio domain).ceiling_mono (Nat.le_add_right (m.counters domain) units)
  have hmax : m.counters domain + units < 2 ^ 64 ↔ m.counters domain + units ≤ U64_MAX := by
    rw [U64_MAX]
    omega
  simp only [WeightMeter.delta, normalizedWeight_eq, if_pos hold, checkedAdd, hmax, checkedSub]
  by_cases hunits : m.counters domain + units ≤ U64_MAX
  · by_cases hweight : (m.schedule.ratio domain).ceiling (m.counters domain + units) ≤ U64_MAX
    · simp [hunits, hweight, Except.toOption, hmono]
    · simp [hunits, hweight, Except.toOption]
  · simp [hunits]

/-- What a charge adds to the weight of all calls. -/
theorem totalWeight_charge (schedule : MeterScheduleV1) (intrinsicWeight : ℕ)
    (calls : List MeterCall) (domain : ResourceDomain) (units : ℕ) :
    totalWeight schedule intrinsicWeight (calls ++ [.charge domain units]) +
        (schedule.ratio domain).ceiling (totalUnits calls domain) =
      totalWeight schedule intrinsicWeight calls +
        (schedule.ratio domain).ceiling (totalUnits calls domain + units) := by
  have hcommon : totalCommon (calls ++ [.charge domain units]) = totalCommon calls :=
    totalCommon_concat _
  rw [totalWeight, totalWeight, hcommon]
  cases domain <;> simp [totalUnits_concat, MeterCall.units, MeterScheduleV1.ratio] <;> omega

theorem totalUnits_charge (calls : List MeterCall) (domain d : ResourceDomain) (units : ℕ) :
    totalUnits (calls ++ [.charge domain units]) d =
      if domain = d then totalUnits calls d + units else totalUnits calls d := by
  rw [totalUnits_concat, MeterCall.units]
  split_ifs <;> rfl

/-- Only the charged domain and the budget can be overrun by a charge. -/
theorem overrun_charge (hfits : ¬ Overrun schedule maxWeight intrinsicWeight calls)
    (domain : ResourceDomain) (units : ℕ) :
    Overrun schedule maxWeight intrinsicWeight (calls ++ [.charge domain units]) ↔
      U64_MAX < totalUnits calls domain + units ∨
      U64_MAX < (schedule.ratio domain).ceiling (totalUnits calls domain + units) ∨
      maxWeight < totalWeight schedule intrinsicWeight (calls ++ [.charge domain units]) := by
  have hnext : totalUnits (calls ++ [.charge domain units]) domain = totalUnits calls domain + units := by
    rw [totalUnits_charge, if_pos rfl]
  constructor
  · rintro (⟨d, hd⟩ | ⟨d, hd⟩ | hweight)
    · by_cases heq : domain = d
      · grind
      · rw [totalUnits_charge, if_neg heq] at hd
        exact absurd (Or.inl ⟨d, hd⟩) hfits
    · by_cases heq : domain = d
      · simp_all
      · rw [totalUnits_charge, if_neg heq] at hd
        exact absurd (Or.inr (Or.inl ⟨d, hd⟩)) hfits
    · exact Or.inr (Or.inr hweight)
  · rintro (hunits | hceiling | hweight)
    · exact Or.inl ⟨domain, hnext ▸ hunits⟩
    · exact Or.inr (Or.inl ⟨domain, hnext ▸ hceiling⟩)
    · exact Or.inr (Or.inr hweight)

theorem Tallied.charge_running (h : Tallied schedule maxWeight intrinsicWeight calls m)
    (hm : m.exhausted = false) {domain : ResourceDomain} {units : ℕ} (hunits : units ≠ 0) :
    Tallied schedule maxWeight intrinsicWeight (calls ++ [.charge domain units])
      (m.charge domain units).2 := by
  obtain ⟨hcounters, hconsumed, hfits⟩ := h.running hm
  have hceiling : (schedule.ratio domain).ceiling (totalUnits calls domain) ≤ U64_MAX :=
    Nat.not_lt.mp fun hlt => hfits (Or.inr (Or.inl ⟨domain, hlt⟩))
  have htotal := totalWeight_charge schedule intrinsicWeight calls domain units
  have hmono := (schedule.ratio domain).ceiling_mono (Nat.le_add_right (totalUnits calls domain) units)
  have hover := overrun_charge hfits domain units
  have hle := m.consumed_le
  have hbudget := h.budget
  rw [WeightMeter.charge, hm, if_neg Bool.false_ne_true, if_neg hunits,
    delta_eq units (by rw [h.schedule_eq, hcounters]; exact hceiling), h.schedule_eq, hcounters]
  split_ifs with hfit
  · dsimp only
    by_cases hspend : m.maxWeight - m.consumed <
      (schedule.ratio domain).ceiling (totalUnits calls domain + units) -
        (schedule.ratio domain).ceiling (totalUnits calls domain)
    · rw [WeightMeter.spend, dif_pos hspend]
      exact h.exhaust (hover.mpr (by omega))
    rw [WeightMeter.spend, dif_neg hspend]
    refine ⟨h.schedule_eq, h.budget, fun hexhausted => ?_, fun _ => ⟨fun d => ?_, ?_, ?_⟩⟩
    · rw [hm] at hexhausted
      cases hexhausted
    · rw [totalUnits_charge]
      grind
    · change m.consumed + _ = _
      omega
    · rw [hover]
      omega
  · exact h.exhaust (hover.mpr (by omega))

theorem Tallied.charge (h : Tallied schedule maxWeight intrinsicWeight calls m)
    (domain : ResourceDomain) (units : ℕ) :
    Tallied schedule maxWeight intrinsicWeight (calls ++ [.charge domain units])
      (m.charge domain units).2 := by
  by_cases hm : m.exhausted = true
  · rw [WeightMeter.charge, if_pos hm]
    exact h.stays hm _
  by_cases hzero : units = 0
  · have hsame : totalUnits (calls ++ [.charge domain units]) = totalUnits calls :=
      funext fun d => by rw [totalUnits_charge, hzero, Nat.add_zero, ite_self]
    have hcommon : totalCommon (calls ++ [.charge domain units]) = totalCommon calls :=
      totalCommon_concat _
    rw [WeightMeter.charge, if_neg hm, if_pos hzero]
    refine ⟨h.schedule_eq, h.budget, fun hexhausted => absurd hexhausted hm, fun hrunning => ?_⟩
    rw [hsame, overrun_congr hsame hcommon, totalWeight_congr hsame hcommon]
    exact h.running hrunning
  · exact h.charge_running (Bool.not_eq_true _ ▸ hm) hzero

theorem Tallied.call (h : Tallied schedule maxWeight intrinsicWeight calls m) (call : MeterCall) :
    Tallied schedule maxWeight intrinsicWeight (calls ++ [call]) (m.call call).2 := by
  cases call with
  | charge domain units => exact h.charge domain units
  | chargeCommon weight => exact h.chargeCommon weight

theorem tallied_new {meter : WeightMeter}
    (hnew : WeightMeter.new schedule maxWeight intrinsicWeight = .ok meter) :
    Tallied schedule maxWeight intrinsicWeight [] meter := by
  unfold WeightMeter.new at hnew
  split_ifs at hnew with hvalid
  obtain rfl := Except.ok.inj hnew
  have hzero : ∀ ratio : WeightRatio, ratio.ceiling 0 = 0 := fun ratio => by
    rw [WeightRatio.ceiling, Nat.zero_mul, zero_ceilDiv]
  refine ⟨rfl, rfl, by rintro ⟨⟩, fun _ => ⟨fun _ => rfl, ?_, ?_⟩⟩
  · simp [totalWeight, totalCommon, totalUnits, hzero]
  · simp only [Overrun, totalWeight, totalCommon, totalUnits, List.map_nil, List.sum_nil, hzero]
    omega

theorem tallied_after {meter : WeightMeter}
    (hnew : WeightMeter.new schedule maxWeight intrinsicWeight = .ok meter)
    (calls : List MeterCall) :
    Tallied schedule maxWeight intrinsicWeight calls (meter.after calls) := by
  induction calls using List.reverseRecOn with
  | nil => exact tallied_new hnew
  | append_singleton calls call ih =>
    rw [WeightMeter.after_concat]
    exact ih.call call

theorem Tallied.exhausted_iff (h : Tallied schedule maxWeight intrinsicWeight calls m) :
    m.exhausted = true ↔ Overrun schedule maxWeight intrinsicWeight calls := by
  refine ⟨fun hm => (h.spent hm).2, fun hover => ?_⟩
  by_contra hm
  exact (h.running (Bool.not_eq_true _ ▸ hm)).2.2 hover

end

theorem call_step (m : WeightMeter) (call : MeterCall) : MeterStep m (m.call call).2 := by
  cases call with
  | charge domain units => exact (charge_charging domain units).step m
  | chargeCommon weight => exact (chargeCommon_charging weight).step m

theorem after_step (m : WeightMeter) (calls : List MeterCall) : MeterStep m (m.after calls) := by
  induction calls generalizing m with
  | nil => exact .refl m
  | cons call calls ih => exact (call_step m call).trans (ih _)

/-- The meter depends on the totals of its charges only. -/
theorem metering_depends_on_totals {schedule : MeterScheduleV1} {maxWeight intrinsicWeight : ℕ}
    {meter : WeightMeter} (hnew : WeightMeter.new schedule maxWeight intrinsicWeight = .ok meter)
    (calls : List MeterCall) :
    (∀ calls', totalUnits calls' = totalUnits calls → totalCommon calls' = totalCommon calls →
      (meter.after calls').consumed = (meter.after calls).consumed ∧
      (meter.after calls').exhausted = (meter.after calls).exhausted) ∧
    ((meter.after calls).exhausted = false →
      (meter.after calls).consumed = totalWeight schedule intrinsicWeight calls) ∧
    ((meter.after calls).exhausted = true ↔ Overrun schedule maxWeight intrinsicWeight calls) ∧
    ((meter.after calls).exhausted = true → (meter.after calls).consumed = maxWeight) ∧
    (meter.after calls).consumed ≤ maxWeight ∧
    ∀ earlier, earlier <+: calls → (meter.after earlier).consumed ≤ (meter.after calls).consumed := by
  have h := tallied_after hnew calls
  refine ⟨fun calls' hunits hcommon => ?_, fun hm => (h.running hm).2.1, h.exhausted_iff,
    fun hm => (h.spent hm).1, ?_, ?_⟩
  · have h' := tallied_after hnew calls'
    have hflag : (meter.after calls').exhausted = (meter.after calls).exhausted := by
      rw [Bool.eq_iff_iff, h.exhausted_iff, h'.exhausted_iff, overrun_congr hunits hcommon]
    refine ⟨?_, hflag⟩
    cases hm : (meter.after calls).exhausted with
    | true => rw [(h.spent hm).1, (h'.spent (hflag.trans hm)).1]
    | false =>
      rw [(h.running hm).2.1, (h'.running (hflag.trans hm)).2.1, totalWeight_congr hunits hcommon]
  · rw [← h.budget]
    exact (meter.after calls).consumed_le
  · rintro earlier ⟨rest, rfl⟩
    rw [WeightMeter.after, WeightMeter.after, List.foldl_append]
    exact (after_step _ rest).consumed

namespace Sample

/-- Three units of the virtual machine weigh one, and rounding is up. -/
def thirds : MeterScheduleV1 := ⟨⟨1, 1, by decide⟩, ⟨1, 3, by decide⟩, ⟨2, 1, by decide⟩⟩

end Sample

open Oregon.Execution.Sample in
/-- Two units cost one, charged together or one by one. -/
theorem metering_depends_on_totals_thirds : ∃ meter, WeightMeter.new thirds 100 5 = .ok meter ∧
    (meter.after [.charge .evm 1, .chargeCommon 3, .charge .evm 1]).consumed = 9 ∧
    (meter.after [.charge .evm 2, .chargeCommon 3]).consumed = 9 := by
  obtain ⟨meter, hnew⟩ : ∃ meter, WeightMeter.new thirds 100 5 = .ok meter := ⟨_, rfl⟩
  have htotals := metering_depends_on_totals hnew [.charge .evm 2, .chargeCommon 3]
  have hconsumed : (meter.after [.charge .evm 2, .chargeCommon 3]).consumed = 9 := by
    cases hnew
    rfl
  refine ⟨meter, hnew, ?_, hconsumed⟩
  rw [(htotals.1 [.charge .evm 1, .chargeCommon 3, .charge .evm 1]
    (funext fun d => by cases d <;> rfl) rfl).1, hconsumed]

end Oregon.Execution
