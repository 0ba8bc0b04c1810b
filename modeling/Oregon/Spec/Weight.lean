import Oregon.Spec.Fees

/-! The weight meter of a transaction. Units of a virtual machine are turned into weight by
the ratio of its domain, rounded up over all its units so far; once a charge does not
fit into the budget, the whole budget is spent and no charge succeeds any more. -/

namespace Oregon.Execution

open Lib

inductive ResourceError where
  | unsupportedVersion (version : ℕ)
  | invalidRatio
  | invalidBudget
  | weightOverflow
  | weightExhausted
  deriving DecidableEq, Repr

def METER_SCHEDULE_VERSION_V1 : ℕ := 1

structure WeightRatio where
  numerator : ℕ
  denominator : ℕ
  valid : ¬ (numerator = 0 ∨ denominator = 0)
  deriving DecidableEq, Repr

def WeightRatio.new (numerator denominator : ℕ) : Except ResourceError WeightRatio :=
  if h : numerator = 0 ∨ denominator = 0 then .error .invalidRatio
  else .ok ⟨numerator, denominator, h⟩

def WeightRatio.normalizedWeight (ratio : WeightRatio) (units : ℕ) : Except ResourceError ℕ :=
  let product := units * ratio.numerator
  let quotient := product / ratio.denominator
  let remainder := product % ratio.denominator
  let rounded := quotient + (if remainder ≠ 0 then 1 else 0)
  orElse (narrow rounded) .weightOverflow

inductive ResourceDomain where
  | native
  | evm
  | wasm
  deriving DecidableEq, Repr

structure MeterScheduleV1 where
  native : WeightRatio
  evm : WeightRatio
  wasm : WeightRatio
  deriving DecidableEq, Repr

def MeterScheduleV1.new (version : ℕ) (native evm wasm : WeightRatio) :
    Except ResourceError MeterScheduleV1 := do
  ensure (version = METER_SCHEDULE_VERSION_V1) (.unsupportedVersion version)
  pure { native, evm, wasm }

def MeterScheduleV1.ratio (schedule : MeterScheduleV1) : ResourceDomain → WeightRatio
  | .native => schedule.native
  | .evm => schedule.evm
  | .wasm => schedule.wasm

/-- What is spent of a budget, and the units counted for each domain. -/
structure WeightMeter where
  schedule : MeterScheduleV1
  counters : ResourceDomain → ℕ
  consumed : ℕ
  maxWeight : ℕ
  exhausted : Bool
  consumed_le : consumed ≤ maxWeight

def WeightMeter.new (schedule : MeterScheduleV1) (maxWeight intrinsicWeight : ℕ) :
    Except ResourceError WeightMeter :=
  if h : maxWeight = 0 ∨ maxWeight < intrinsicWeight then .error .invalidBudget
  else .ok { schedule, counters := fun _ => 0, consumed := intrinsicWeight, maxWeight,
             exhausted := false, consumed_le := Nat.not_lt.mp (not_or.mp h).2 }

/-- What a charge returns, with the meter it leaves: a failed charge spends the budget. -/
def WeightMeter.exhaust (meter : WeightMeter) : Except ResourceError Unit × WeightMeter :=
  (.error .weightExhausted,
    { meter with consumed := meter.maxWeight, exhausted := true, consumed_le := le_rfl })

/-- Spends `weight`, or everything when it does not fit. -/
def WeightMeter.spend (meter : WeightMeter) (weight : ℕ) :
    Except ResourceError Unit × WeightMeter :=
  if h : meter.maxWeight - meter.consumed < weight then meter.exhaust
  else (.ok (), { meter with
    consumed := meter.consumed + weight
    consumed_le := by have := meter.consumed_le; omega })

/-- The weight that `units` more of a domain add, with the new counter. -/
def WeightMeter.delta (meter : WeightMeter) (domain : ResourceDomain) (units : ℕ) :
    Option (ℕ × ℕ) := do
  let nextCounter ← checkedAdd (meter.counters domain) units
  let ratio := meter.schedule.ratio domain
  let oldWeight ← (ratio.normalizedWeight (meter.counters domain)).toOption
  let newWeight ← (ratio.normalizedWeight nextCounter).toOption
  let delta ← checkedSub newWeight oldWeight
  pure (nextCounter, delta)

def WeightMeter.charge (meter : WeightMeter) (domain : ResourceDomain) (units : ℕ) :
    Except ResourceError Unit × WeightMeter :=
  if meter.exhausted then (.error .weightExhausted, meter)
  else if units = 0 then (.ok (), meter)
  else match meter.delta domain units with
    | none => meter.exhaust
    | some (nextCounter, delta) =>
      match meter.spend delta with
      | (.error e, meter) => (.error e, meter)
      | (.ok (), meter) =>
        (.ok (), { meter with counters := Function.update meter.counters domain nextCounter })

def WeightMeter.chargeCommon (meter : WeightMeter) (weight : ℕ) :
    Except ResourceError Unit × WeightMeter :=
  if meter.exhausted then (.error .weightExhausted, meter) else meter.spend weight

end Oregon.Execution
