import Mathlib.Tactic.NormNum
import Mathlib.Tactic.Ring
import Oregon.Spec.Consensus

/-! The target that a height requires. The parent's drift from the schedule, counted in
fractions of a half-life, is an exponent of two; its fraction goes through a cubic that
grows from one to two over an octave, so the target follows the drift without a step
back. The target is computed exactly for every input and clamped at the end. -/

namespace Oregon

open Lib

/-- The seconds by which the parent is later than its height asks for. -/
def asertDrift (height : ℕ) (parentTimestamp genesisTimestamp : UInt64) : ℤ :=
  (parentTimestamp.toNat : ℤ) - genesisTimestamp.toNat - TARGET_BLOCK_SECONDS * ((height - 2 : ℕ) + 1)

def asertExponent (drift : ℤ) : ℤ := (drift * ASERT_RADIX).tdiv ASERT_HALF_LIFE_SECONDS

def asertPolynomial (frac : ℤ) : ℤ :=
  195766423245049 * frac + 971821376 * (frac * frac) + 5127 * (frac * frac * frac) + 2 ^ 47

/-- Two to the power of the fraction, times the radix. -/
def asertFactor (frac : ℤ) : ℤ := (asertPolynomial frac >>> (48 : ℕ)) + ASERT_RADIX

/-- The whole octaves of an exponent. -/
def octaves (exponent : ℤ) : ℤ := exponent >>> (16 : ℕ)

def octaveFraction (exponent : ℤ) : ℤ := exponent - octaves exponent * ASERT_RADIX

/-- The target before it is clamped, for exponents of any size. -/
def unclampedTarget (initial : ℕ) (exponent : ℤ) : ℕ :=
  let product := initial * (asertFactor (octaveFraction exponent)).toNat
  let shifted := if octaves exponent < 0 then product >>> (-octaves exponent).toNat
    else product <<< (octaves exponent).toNat
  shifted >>> 16

def clampTarget (powLimit candidate : ℕ) : ℕ :=
  if candidate = 0 then 1 else if powLimit < candidate then powLimit else candidate

section

variable {e e' d d' f f' : ℤ}

theorem octaves_eq (e : ℤ) : octaves e = e / 65536 := by
  rw [octaves, Int.shiftRight_eq_div_pow]
  norm_num

theorem octaveFraction_eq (e : ℤ) : octaveFraction e = e % 65536 := by
  rw [octaveFraction, octaves_eq, ASERT_RADIX]
  omega

theorem octaveFraction_mem (e : ℤ) : 0 ≤ octaveFraction e ∧ octaveFraction e < 65536 := by
  rw [octaveFraction_eq]
  omega

theorem asertPolynomial_mono (hf : 0 ≤ f) (hle : f ≤ f') :
    asertPolynomial f ≤ asertPolynomial f' := by
  have hsquare : f * f ≤ f' * f' := mul_le_mul hle hle hf (hf.trans hle)
  have hcube : f * f * f ≤ f' * f' * f' :=
    mul_le_mul hsquare hle hf (mul_nonneg (hf.trans hle) (hf.trans hle))
  unfold asertPolynomial
  omega

theorem asertFactor_eq (f : ℤ) : asertFactor f = asertPolynomial f / 281474976710656 + 65536 := by
  rw [asertFactor, Int.shiftRight_eq_div_pow, ASERT_RADIX]
  norm_num

theorem asertFactor_mono (hf : 0 ≤ f) (hle : f ≤ f') : asertFactor f ≤ asertFactor f' := by
  have := asertPolynomial_mono hf hle
  rw [asertFactor_eq, asertFactor_eq]
  omega

theorem asertFactor_zero : asertFactor 0 = 65536 := by
  rw [asertFactor_eq]
  norm_num [asertPolynomial]

/-- At the end of an octave the factor has not passed the beginning of the next. -/
theorem asertFactor_mem (hf : 0 ≤ f) (hlt : f < 65536) :
    65536 ≤ asertFactor f ∧ asertFactor f ≤ 131072 := by
  have hzero := asertFactor_mono le_rfl hf
  have hlast := asertFactor_mono hf (Int.le_sub_one_of_lt hlt)
  grind [asertFactor_eq, asertPolynomial]

/-- The target as one quotient, when `k` makes the power of two a whole number. -/
theorem unclampedTarget_eq (initial : ℕ) {k : ℕ} (hk : 0 ≤ octaves e + k) :
    unclampedTarget initial e = initial * (asertFactor (octaveFraction e)).toNat *
      2 ^ (octaves e + k).toNat / 2 ^ (16 + k) := by
  unfold unclampedTarget
  dsimp only
  split_ifs with hneg
  · -- a shift to the right by `s`, where `s ≤ k`
    obtain ⟨s, hs⟩ : ∃ s : ℕ, octaves e = -s := ⟨(-octaves e).toNat, by omega⟩
    obtain ⟨r, rfl⟩ : ∃ r, k = s + r := ⟨k - s, by omega⟩
    have hexp : (octaves e + (s + r : ℕ)).toNat = r := by omega
    have hshift : (-octaves e).toNat = s := by omega
    rw [hexp, hshift, Nat.shiftRight_eq_div_pow, Nat.shiftRight_eq_div_pow, Nat.div_div_eq_div_mul,
      ← pow_add, show 16 + (s + r) = s + 16 + r by omega, pow_add 2 (s + 16) r,
      Nat.mul_div_mul_right _ _ (by positivity)]
  · obtain ⟨s, hs⟩ : ∃ s : ℕ, octaves e = s := ⟨(octaves e).toNat, by omega⟩
    have hexp : (octaves e + k).toNat = s + k := by omega
    have hshift : (octaves e).toNat = s := by omega
    rw [hexp, hshift, Nat.shiftLeft_eq, Nat.shiftRight_eq_div_pow, pow_add, pow_add, ← mul_assoc,
      Nat.mul_div_mul_right _ _ (by positivity)]

/-- A larger exponent gives a larger target, within an octave and from one to the next. -/
theorem unclampedTarget_mono (initial : ℕ) (hle : e ≤ e') :
    unclampedTarget initial e ≤ unclampedTarget initial e' := by
  obtain ⟨k, hk⟩ : ∃ k : ℕ, 0 ≤ octaves e + k := ⟨(-octaves e).toNat, by omega⟩
  have hoctaves : octaves e ≤ octaves e' := by
    rw [octaves_eq, octaves_eq]
    omega
  have hk' : 0 ≤ octaves e' + k := by omega
  rw [unclampedTarget_eq initial hk, unclampedTarget_eq initial hk', mul_assoc, mul_assoc]
  refine Nat.div_le_div_right (Nat.mul_le_mul_left _ ?_)
  obtain ⟨hf, hlt⟩ := octaveFraction_mem e
  obtain ⟨hf', hlt'⟩ := octaveFraction_mem e'
  obtain ⟨hlow, hhigh⟩ := asertFactor_mem hf hlt
  obtain ⟨hlow', -⟩ := asertFactor_mem hf' hlt'
  rcases hoctaves.eq_or_lt with heq | hnext
  · have hfrac : octaveFraction e ≤ octaveFraction e' := by
      rw [octaveFraction, octaveFraction, heq]
      omega
    rw [heq]
    exact Nat.mul_le_mul_right _ (Int.toNat_le_toNat (asertFactor_mono hf hfrac))
  · have hpow : 2 ^ (octaves e + k).toNat * 2 ≤ 2 ^ (octaves e' + k).toNat := by
      rw [← pow_succ]
      exact Nat.pow_le_pow_right (by norm_num) (by omega)
    calc (asertFactor (octaveFraction e)).toNat * 2 ^ (octaves e + k).toNat
        ≤ 131072 * 2 ^ (octaves e + k).toNat := Nat.mul_le_mul_right _ (by omega)
      _ = 65536 * (2 ^ (octaves e + k).toNat * 2) := by ring
      _ ≤ (asertFactor (octaveFraction e')).toNat * 2 ^ (octaves e' + k).toNat :=
        Nat.mul_le_mul (by omega) hpow

/-- One octave more doubles the target, up to the bit that was shifted out. -/
theorem unclampedTarget_octave (initial : ℕ) (e : ℤ) :
    unclampedTarget initial (e + 65536) = 2 * unclampedTarget initial e ∨
      unclampedTarget initial (e + 65536) = 2 * unclampedTarget initial e + 1 := by
  obtain ⟨k, hk⟩ : ∃ k : ℕ, 0 ≤ octaves e + k := ⟨(-octaves e).toNat, by omega⟩
  have hoctaves : octaves (e + 65536) = octaves e + 1 := by
    rw [octaves_eq, octaves_eq]
    omega
  have hfrac : octaveFraction (e + 65536) = octaveFraction e := by
    rw [octaveFraction_eq, octaveFraction_eq]
    omega
  have hk' : 0 ≤ octaves (e + 65536) + k := by omega
  have hexp : (octaves (e + 65536) + k).toNat = (octaves e + k).toNat + 1 := by omega
  rw [unclampedTarget_eq initial hk, unclampedTarget_eq initial hk', hexp, hfrac, pow_succ,
    ← mul_assoc]
  generalize initial * (asertFactor (octaveFraction e)).toNat * 2 ^ (octaves e + k).toNat = x
  have hpos : 0 < 2 ^ (16 + k) := by positivity
  generalize 2 ^ (16 + k) = y at *
  have hdiv := Nat.div_add_mod x y
  have hmod := Nat.mod_lt x hpos
  have hlow : 2 * (x / y) ≤ x * 2 / y := by
    rw [Nat.le_div_iff_mul_le hpos, show 2 * (x / y) * y = 2 * (y * (x / y)) by ring]
    omega
  have hhigh : x * 2 / y < 2 * (x / y) + 2 := by
    rw [Nat.div_lt_iff_lt_mul hpos, show (2 * (x / y) + 2) * y = 2 * (y * (x / y)) + 2 * y by ring]
    omega
  omega

theorem asertExponent_eq (d : ℤ) : asertExponent d =
    if 0 ≤ d then d * 65536 / 21600 else -(-d * 65536 / 21600) := by
  unfold asertExponent ASERT_RADIX ASERT_HALF_LIFE_SECONDS
  split_ifs with hd
  · exact Int.tdiv_eq_ediv_of_nonneg (by omega)
  · rw [← Int.tdiv_eq_ediv_of_nonneg (by omega), neg_mul, Int.neg_tdiv, neg_neg]

theorem asertExponent_mono (hle : d ≤ d') : asertExponent d ≤ asertExponent d' := by
  rw [asertExponent_eq, asertExponent_eq]
  split_ifs <;> omega

/-- A half-life is an octave, on either side of the schedule. -/
theorem asertExponent_half_life (h : 0 ≤ d ∨ d ≤ -ASERT_HALF_LIFE_SECONDS) :
    asertExponent (d + ASERT_HALF_LIFE_SECONDS) = asertExponent d + 65536 := by
  grind [ASERT_HALF_LIFE_SECONDS, asertExponent_eq]

/-- Beyond 256 octaves no candidate is within 256 bits. -/
theorem unclampedTarget_large {initial : ℕ} (hpos : 1 ≤ initial) (he : 256 ≤ octaves e) :
    2 ^ 256 ≤ unclampedTarget initial e := by
  obtain ⟨hf, hlt⟩ := octaveFraction_mem e
  obtain ⟨hlow, -⟩ := asertFactor_mem hf hlt
  have hk : 0 ≤ octaves e + (0 : ℕ) := by omega
  rw [unclampedTarget_eq initial hk, Nat.le_div_iff_mul_le (by positivity)]
  calc 2 ^ 256 * 2 ^ (16 + 0) = 1 * 65536 * 2 ^ 256 := by norm_num
    _ ≤ initial * (asertFactor (octaveFraction e)).toNat * 2 ^ (octaves e + (0 : ℕ)).toNat :=
      Nat.mul_le_mul (Nat.mul_le_mul hpos (by omega)) (Nat.pow_le_pow_right (by norm_num) (by omega))

/-- Below -256 octaves nothing is left of 256 bits. -/
theorem unclampedTarget_small {initial : ℕ} (hlt : initial < 2 ^ 256) (he : octaves e ≤ -257) :
    unclampedTarget initial e = 0 := by
  obtain ⟨hf, hfrac⟩ := octaveFraction_mem e
  obtain ⟨-, hhigh⟩ := asertFactor_mem hf hfrac
  obtain ⟨k, hk⟩ : ∃ k : ℕ, octaves e = -k := ⟨(-octaves e).toNat, by omega⟩
  have hexp : (octaves e + k).toNat = 0 := by omega
  have hk' : 0 ≤ octaves e + k := by omega
  rw [unclampedTarget_eq initial hk', hexp, pow_zero, mul_one, Nat.div_eq_zero_iff_lt (by positivity)]
  calc initial * (asertFactor (octaveFraction e)).toNat
      < 2 ^ 256 * 2 ^ 17 := by
        refine Nat.mul_lt_mul_of_lt_of_le hlt ?_ (by norm_num)
        omega
    _ ≤ 2 ^ 256 * 2 ^ (k - 240) := Nat.mul_le_mul_left _ (Nat.pow_le_pow_right (by norm_num) (by omega))
    _ = 2 ^ (16 + k) := by rw [← pow_add, show 256 + (k - 240) = 16 + k by omega]

end

section

variable {powLimit candidate candidate' : ℕ}

theorem clampTarget_mem (hlimit : 1 ≤ powLimit) :
    1 ≤ clampTarget powLimit candidate ∧ clampTarget powLimit candidate ≤ powLimit := by
  unfold clampTarget
  split_ifs <;> omega

theorem clampTarget_mono (hlimit : 1 ≤ powLimit) (hle : candidate ≤ candidate') :
    clampTarget powLimit candidate ≤ clampTarget powLimit candidate' := by
  unfold clampTarget
  split_ifs <;> omega

end

theorem Target.toNat_pos (t : Target) : 1 ≤ t.toNat := by
  have h := t.ne_zero
  rw [Nat.one_le_iff_ne_zero, Target.toNat]
  exact fun hzero => h (BitVec.toNat_inj.mp (by simpa using hzero))

theorem Target.toNat_inj {t t' : Target} (h : t.toNat = t'.toNat) : t = t' := by
  obtain ⟨value', _⟩ := t'
  obtain rfl := BitVec.toNat_inj.mp h
  rfl

theorem Target.toNat_lt (t : Target) : t.toNat < 2 ^ 256 := t.value.isLt

theorem fromBiguint_ok {n : ℕ} (hpos : 1 ≤ n) (hlt : n < 2 ^ 256) :
    ∃ t, Target.fromBiguint n = .ok t ∧ t.toNat = n := by
  have hne : BitVec.ofNat 256 n ≠ 0 := fun hzero => by
    have := congrArg BitVec.toNat hzero
    simp at this
    omega
  refine ⟨⟨BitVec.ofNat 256 n, hne⟩, ?_, ?_⟩
  · rw [Target.fromBiguint, if_neg (by omega), if_neg (Nat.not_le.mpr hlt), Target.fromLeBytes,
      dif_neg hne]
  · rw [Target.toNat, BitVec.toNat_ofNat, Nat.mod_eq_of_lt hlt]

theorem checkedI128_ok {x : ℤ} (hlow : -2 ^ 127 ≤ x) (hhigh : x < 2 ^ 127) :
    checkedI128 x = .ok x := by
  rw [checkedI128, ensure_ok ⟨hlow, hhigh⟩]
  rfl

section

variable {height : ℕ} {parentTimestamp genesisTimestamp : UInt64} {params : ConsensusParams}

theorem asertDrift_bounds (hheight : height < 2 ^ 64) :
    -2 ^ 74 < asertDrift height parentTimestamp genesisTimestamp ∧
      asertDrift height parentTimestamp genesisTimestamp < 2 ^ 64 := by
  have hparent := parentTimestamp.toNat_lt
  have hgenesis := genesisTimestamp.toNat_lt
  unfold asertDrift TARGET_BLOCK_SECONDS
  omega

theorem asertExponent_bounds {d : ℤ} (hlow : -2 ^ 74 < d) (hhigh : d < 2 ^ 64) :
    -2 ^ 90 < asertExponent d ∧ asertExponent d < 2 ^ 90 := by
  rw [asertExponent_eq]
  split_ifs <;> omega

theorem asertTerms_bounds {f : ℤ} (hf : 0 ≤ f) (hlt : f < 65536) :
    (0 ≤ f * f ∧ f * f < 2 ^ 32) ∧ 0 ≤ f * f * f ∧ f * f * f < 2 ^ 48 := by
  have hsquare : f * f < 2 ^ 32 := by nlinarith
  have hnonneg := mul_nonneg hf hf
  refine ⟨⟨hnonneg, hsquare⟩, mul_nonneg hnonneg hf, by nlinarith⟩

variable (parentTimestamp genesisTimestamp params)

/-- No check on the way fails, and the early exits give what the formula gives. -/
theorem requiredTarget_eq (hlow : 2 ≤ height) (hheight : height < 2 ^ 64) :
    ∃ t, requiredTarget height parentTimestamp genesisTimestamp params = .ok t ∧
      t.toNat = clampTarget params.powLimit.toNat (unclampedTarget params.initialTarget.toNat
        (asertExponent (asertDrift height parentTimestamp genesisTimestamp))) := by
  obtain ⟨hdrift, hdrift'⟩ : -2 ^ 74 < asertDrift height parentTimestamp genesisTimestamp ∧
    asertDrift height parentTimestamp genesisTimestamp < 2 ^ 64 := asertDrift_bounds hheight
  have hideal : (parentTimestamp.toNat : ℤ) - genesisTimestamp.toNat -
      TARGET_BLOCK_SECONDS * ((height - 2 : ℕ) + 1) =
    asertDrift height parentTimestamp genesisTimestamp := rfl
  generalize asertDrift height parentTimestamp genesisTimestamp = d at *
  obtain ⟨hexponent, hexponent'⟩ := asertExponent_bounds hdrift hdrift'
  have hdiv : (d * ASERT_RADIX).tdiv ASERT_HALF_LIFE_SECONDS = asertExponent d := rfl
  have hbeyond : d * ASERT_RADIX < 2 ^ 127 ∧ -2 ^ 127 ≤ d * ASERT_RADIX := by
    unfold ASERT_RADIX
    omega
  generalize asertExponent d = e at *
  obtain ⟨hf, hf'⟩ := octaveFraction_mem e
  have hoctaves := octaves_eq e
  have hshift : e >>> (16 : ℕ) = octaves e := rfl
  have hfrac : e - octaves e * ASERT_RADIX = octaveFraction e := rfl
  have hradix : octaves e * ASERT_RADIX < 2 ^ 127 ∧ -2 ^ 127 ≤ octaves e * ASERT_RADIX := by omega
  obtain ⟨⟨hsquare, hsquare'⟩, hcube, hcube'⟩ := asertTerms_bounds hf hf'
  obtain ⟨hfactor, hfactor'⟩ := asertFactor_mem hf hf'
  have hpolynomial : 195766423245049 * octaveFraction e +
      971821376 * (octaveFraction e * octaveFraction e) +
      5127 * (octaveFraction e * octaveFraction e * octaveFraction e) + 2 ^ 47 =
    asertPolynomial (octaveFraction e) := rfl
  have hcandidate : unclampedTarget params.initialTarget.toNat e =
      (if octaves e < 0 then
        (params.initialTarget.toNat * (asertFactor (octaveFraction e)).toNat) >>> (-octaves e).toNat
      else (params.initialTarget.toNat * (asertFactor (octaveFraction e)).toNat) <<< (octaves e).toNat) >>>
        16 := rfl
  rw [requiredTarget, if_neg (by omega), if_neg (by omega)]
  dsimp only
  unfold TARGET_BLOCK_SECONDS at *
  rw [checkedI128_ok (by omega) (by omega), ok_bind, checkedI128_ok (by omega) (by omega), ok_bind,
    hideal, checkedI128_ok (by omega) (by omega), ok_bind, checkedI128_ok hbeyond.2 hbeyond.1, ok_bind,
    hdiv, hshift, checkedI128_ok hradix.2 hradix.1, ok_bind, hfrac,
    checkedI128_ok (by omega) (by omega), ok_bind, ensure_ok ⟨hf, hf'⟩, ok_bind,
    checkedI128_ok (by omega) (by omega), ok_bind, checkedI128_ok (by omega) (by omega), ok_bind,
    checkedI128_ok (by omega) (by omega), ok_bind, checkedI128_ok (by omega) (by omega), ok_bind,
    checkedI128_ok (by omega) (by omega), ok_bind, checkedI128_ok (by omega) (by omega), ok_bind,
    checkedI128_ok (by omega) (by omega), ok_bind, checkedI128_ok (by omega) (by omega), ok_bind,
    hpolynomial, ← asertFactor, ensure_ok ⟨by omega, by omega⟩, ok_bind, ← hcandidate]
  have hinitial := params.initialTarget.toNat_pos
  have hlimit' := params.powLimit.toNat_lt
  by_cases hlarge : 256 ≤ octaves e
  · have hcandidate := unclampedTarget_large hinitial hlarge
    rw [if_pos hlarge]
    refine ⟨_, rfl, ?_⟩
    rw [clampTarget, if_neg (by omega), if_pos (hlimit'.trans_le hcandidate)]
  rw [if_neg hlarge]
  by_cases hsmall : octaves e ≤ -257
  · rw [if_pos hsmall, unclampedTarget_small params.initialTarget.toNat_lt hsmall]
    exact fromBiguint_ok le_rfl (by norm_num)
  unfold clampTarget
  split_ifs with hzero hexceeds
  · exact fromBiguint_ok le_rfl (by norm_num)
  · exact ⟨_, rfl, rfl⟩
  · exact fromBiguint_ok (by omega) (by omega)

theorem requiredTarget_ok (hpos : 1 ≤ height) (hheight : height < 2 ^ 64) :
    ∃ t, requiredTarget height parentTimestamp genesisTimestamp params = .ok t ∧
      ((height = 1 ∧ t = params.initialTarget) ∨ 2 ≤ height ∧
        t.toNat = clampTarget params.powLimit.toNat (unclampedTarget params.initialTarget.toNat
          (asertExponent (asertDrift height parentTimestamp genesisTimestamp)))) := by
  rcases Nat.eq_or_lt_of_le hpos with rfl | hlow
  · exact ⟨_, rfl, Or.inl ⟨rfl, rfl⟩⟩
  · obtain ⟨t, ht, hvalue⟩ := requiredTarget_eq parentTimestamp genesisTimestamp params hlow hheight
    exact ⟨t, ht, Or.inr ⟨hlow, hvalue⟩⟩

variable {parentTimestamp genesisTimestamp}

theorem asertDrift_mono_parent {parentTimestamp' : UInt64} (hle : parentTimestamp ≤ parentTimestamp') :
    asertDrift height parentTimestamp genesisTimestamp ≤
      asertDrift height parentTimestamp' genesisTimestamp := by
  have := UInt64.le_iff_toNat_le.mp hle
  unfold asertDrift
  omega

theorem asertDrift_anti_height {height' : ℕ} (hle : height ≤ height') :
    asertDrift height' parentTimestamp genesisTimestamp ≤
      asertDrift height parentTimestamp genesisTimestamp := by
  unfold asertDrift TARGET_BLOCK_SECONDS
  omega

/-- Without a drift the exponent is zero, and the factor is one. -/
theorem unclampedTarget_zero (initial : ℕ) : unclampedTarget initial 0 = initial := by
  have hk : 0 ≤ octaves 0 + (0 : ℕ) := by decide
  rw [unclampedTarget_eq initial hk, show octaveFraction 0 = 0 from rfl, asertFactor_zero,
    show (octaves 0 + (0 : ℕ)).toNat = 0 from rfl, pow_zero, mul_one]
  exact Nat.mul_div_cancel initial (by norm_num)

end

/-- The target follows the schedule: it is defined for every input, within its bounds, grows
with the parent's time and shrinks with the height, and doubles with each half-life. -/
theorem required_target_follows_schedule {powLimit initialTarget : Target} {key : Hash256}
    {params : ConsensusParams} (hparams : ConsensusParams.new powLimit initialTarget key = .ok params) :
    (∀ (height : ℕ) (parent genesis : UInt64), 1 ≤ height → height < 2 ^ 64 →
      ∃ t, requiredTarget height parent genesis params = .ok t ∧
        1 ≤ t.toNat ∧ t.toNat ≤ params.powLimit.toNat) ∧
    (∀ (height : ℕ) (parent parent' genesis : UInt64) (t t' : Target), 1 ≤ height → height < 2 ^ 64 →
      parent ≤ parent' → requiredTarget height parent genesis params = .ok t →
      requiredTarget height parent' genesis params = .ok t' → t.toNat ≤ t'.toNat) ∧
    (∀ (height height' : ℕ) (parent genesis : UInt64) (t t' : Target), 2 ≤ height → height ≤ height' →
      height' < 2 ^ 64 → requiredTarget height parent genesis params = .ok t →
      requiredTarget height' parent genesis params = .ok t' → t'.toNat ≤ t.toNat) ∧
    (∀ (height : ℕ) (parent genesis : UInt64), 1 ≤ height → height < 2 ^ 64 →
      parent.toNat = genesis.toNat + 300 * (height - 1) →
      requiredTarget height parent genesis params = .ok params.initialTarget) ∧
    (∀ (height : ℕ) (parent genesis : UInt64) (t : Target), 2 ≤ height → height < 2 ^ 64 →
      requiredTarget height parent genesis params = .ok t →
      t.toNat = clampTarget params.powLimit.toNat (unclampedTarget params.initialTarget.toNat
        (asertExponent (asertDrift height parent genesis)))) ∧
    (∀ drift : ℤ, 0 ≤ drift ∨ drift ≤ -ASERT_HALF_LIFE_SECONDS →
      unclampedTarget params.initialTarget.toNat
          (asertExponent (drift + ASERT_HALF_LIFE_SECONDS)) =
        2 * unclampedTarget params.initialTarget.toNat (asertExponent drift) ∨
      unclampedTarget params.initialTarget.toNat
          (asertExponent (drift + ASERT_HALF_LIFE_SECONDS)) =
        2 * unclampedTarget params.initialTarget.toNat (asertExponent drift) + 1) := by
  have hlimit := params.powLimit.toNat_pos
  have hinitial : params.initialTarget.toNat ≤ params.powLimit.toNat := by
    simp only [ConsensusParams.new, bind_eq_ok, ensure_eq_ok, exists_unit, pure_eq_ok] at hparams
    rw [← hparams.2]
    exact hparams.1
  -- the value of a target that was returned
  have hvalue : ∀ (height : ℕ) (parent genesis : UInt64) (t : Target), 2 ≤ height →
      height < 2 ^ 64 → requiredTarget height parent genesis params = .ok t →
      t.toNat = clampTarget params.powLimit.toNat (unclampedTarget params.initialTarget.toNat
        (asertExponent (asertDrift height parent genesis))) := by
    intro height parent genesis t hlow hheight ht
    obtain ⟨t', ht', hvalue⟩ := requiredTarget_eq parent genesis params hlow hheight
    obtain rfl := Except.ok.inj (ht.symm.trans ht')
    exact hvalue
  refine ⟨?_, ?_, ?_, ?_, hvalue, ?_⟩
  · intro height parent genesis hpos hheight
    obtain ⟨t, ht, ⟨-, rfl⟩ | ⟨-, hvalue⟩⟩ := requiredTarget_ok parent genesis params hpos hheight
    · exact ⟨_, ht, Target.toNat_pos _, hinitial⟩
    · exact ⟨t, ht, hvalue ▸ clampTarget_mem hlimit⟩
  · intro height parent parent' genesis t t' hpos hheight hle ht ht'
    rcases Nat.eq_or_lt_of_le hpos with rfl | hlow
    · rw [← Except.ok.inj ht, ← Except.ok.inj ht']
    · rw [hvalue _ _ _ _ hlow hheight ht, hvalue _ _ _ _ hlow hheight ht']
      exact clampTarget_mono hlimit (unclampedTarget_mono _ (asertExponent_mono
        (asertDrift_mono_parent hle)))
  · intro height height' parent genesis t t' hlow hle hheight ht ht'
    rw [hvalue _ _ _ _ hlow (by omega) ht, hvalue _ _ _ _ (hlow.trans hle) hheight ht']
    exact clampTarget_mono hlimit (unclampedTarget_mono _ (asertExponent_mono
      (asertDrift_anti_height hle)))
  · intro height parent genesis hpos hheight hschedule
    obtain ⟨t, ht, ⟨-, rfl⟩ | ⟨hlow, hvalue⟩⟩ := requiredTarget_ok parent genesis params hpos hheight
    · exact ht
    · have hdrift : asertDrift height parent genesis = 0 := by
        unfold asertDrift TARGET_BLOCK_SECONDS
        omega
      rw [hdrift, show asertExponent 0 = 0 from rfl, unclampedTarget_zero, clampTarget,
        if_neg (Nat.one_le_iff_ne_zero.mp (Target.toNat_pos _)), if_neg (Nat.not_lt.mpr hinitial)] at hvalue
      rw [ht, Target.toNat_inj hvalue]
  · intro drift hdrift
    rw [asertExponent_half_life hdrift]
    exact unclampedTarget_octave _ _

namespace Sample

/-- A limit of ten million, and a first target of one million. -/
def tenMillion : Target := ⟨10000000, by decide⟩

def oneMillion : Target := ⟨1000000, by decide⟩

end Sample

open Sample in
theorem required_target_follows_schedule_sample :
    ConsensusParams.new tenMillion oneMillion 0 = .ok ⟨tenMillion, oneMillion, 0⟩ ∧
      requiredTarget 2 1300 1000 ⟨tenMillion, oneMillion, 0⟩ = .ok oneMillion := by
  have hparams : ConsensusParams.new tenMillion oneMillion 0 = .ok ⟨tenMillion, oneMillion, 0⟩ := rfl
  exact ⟨hparams, (required_target_follows_schedule hparams).2.2.2.1 2 1300 1000 (by decide)
    (by decide) (by decide)⟩

end Oregon
