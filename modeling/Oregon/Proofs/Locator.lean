import Oregon.Spec.Locator

/-! A locator names few heights, and still one close below every fork: the gaps between the
heights it lists grow no faster than their distance from the tip. -/

namespace Oregon.Sync

open Lib Protocol

/-- The step that the loop takes at a height it has just listed. -/
def nextStep (slots step : ℕ) : ℕ :=
  if 10 ≤ MAX_LOCATOR_HASHES.toNat - slots then saturate (step * 2) else step

theorem locatorFrom_last {height step : ℕ} (h : height ≠ 0) : locatorFrom 1 height step = [0] := by
  simp [locatorFrom, h]

theorem locatorFrom_zero (slots step : ℕ) : locatorFrom (slots + 1) 0 step = [0] := by
  simp [locatorFrom]

theorem locatorFrom_succ (slots : ℕ) {height step : ℕ} (h : height ≠ 0) :
    locatorFrom (slots + 2) height step =
      height :: locatorFrom (slots + 1) (height - nextStep (slots + 1) step)
        (nextStep (slots + 1) step) := by
  rw [locatorFrom, if_neg (by omega), if_neg h]
  rfl

theorem nextStep_pos (slots : ℕ) {step : ℕ} (h : 0 < step) : 0 < nextStep slots step := by
  rw [nextStep, saturate]
  split_ifs
  · omega
  · exact h

theorem nextStep_le (slots step : ℕ) : nextStep slots step ≤ 2 * step := by
  rw [nextStep, saturate]
  split_ifs
  · omega
  · omega

theorem sub_nextStep {slots height step : ℕ} (hslots : slots ≤ 54) (hheight : height < 2 ^ 64) :
    height - nextStep slots step = height - step * 2 := by
  have hmax : MAX_LOCATOR_HASHES.toNat = 64 := rfl
  rw [nextStep, saturate, if_pos (by omega)]
  omega

/-- The listed heights: `height` first, falling strictly, no more than the places left, and
zero at the end. -/
theorem locatorFrom_shape (slots height : ℕ) {step : ℕ} (hstep : 0 < step) :
    (locatorFrom (slots + 1) height step).Pairwise (· > ·) ∧
      (∀ h ∈ locatorFrom (slots + 1) height step, h ≤ height) ∧
      (locatorFrom (slots + 1) height step).length ≤ slots + 1 ∧
      (locatorFrom (slots + 1) height step).getLast? = some 0 := by
  induction slots generalizing height step with
  | zero =>
    by_cases hzero : height = 0
    · rw [hzero, locatorFrom_zero]
      simp
    · rw [locatorFrom_last hzero]
      simp
  | succ slots ih =>
    by_cases hzero : height = 0
    · rw [hzero, locatorFrom_zero]
      simp
    · have hnext := nextStep_pos (slots + 1) hstep
      obtain ⟨hpairwise, hle, hlength, hlast⟩ :=
        ih (height - nextStep (slots + 1) step) hnext
      rw [locatorFrom_succ slots hzero]
      refine ⟨List.pairwise_cons.mpr ⟨fun h hh => ?_, hpairwise⟩, ?_, ?_, ?_⟩
      · have := hle h hh
        omega
      · grind
      · rw [List.length_cons]
        omega
      · rw [List.getLast?_cons, hlast]
        rfl

/-- The places left suffice to come down to zero: before the steps double there are always
enough of them for a height below `2 ^ 53`. -/
def Enough (slots height step : ℕ) : Prop :=
  if slots ≤ 54 then height ≤ (2 ^ (slots + 1) - 2) * step else height < 2 ^ 53 ∧ step = 1

theorem Enough.next {slots height step : ℕ} (h : Enough (slots + 1) height step)
    (hheight : height < 2 ^ 53) :
    Enough slots (height - nextStep (slots + 1) step) (nextStep (slots + 1) step) := by
  have hmax : MAX_LOCATOR_HASHES.toNat = 64 := rfl
  rw [Enough] at h ⊢
  by_cases hslots : slots + 1 ≤ 54
  · rw [if_pos hslots] at h
    rw [if_pos (by omega), sub_nextStep hslots (by omega)]
    by_cases hfits : step * 2 ≤ 2 ^ 64 - 1
    · have hnext : nextStep (slots + 1) step = step * 2 := by
        rw [nextStep, saturate, if_pos (by omega), min_eq_left hfits]
      grind [add_mul, mul_assoc, Nat.mul_comm]
    · omega
  · rw [if_neg hslots] at h
    obtain ⟨hlt, rfl⟩ := h
    have hnext : nextStep (slots + 1) 1 = 1 := by rw [nextStep, if_neg (by omega)]
    grind

theorem Enough.mem {slots height step : ℕ} (h : Enough slots height step) :
    height ∈ locatorFrom (slots + 1) height step := by
  by_cases hzero : height = 0
  · rw [hzero, locatorFrom_zero]
    exact List.mem_singleton_self 0
  · cases slots with
    | zero => exact absurd (by simpa [Enough] using h) hzero
    | succ slots => exact List.mem_cons_self ..

/-- Close below every height that the loop still has to pass stands a listed one: the next
step is no longer than the way back to the tip. -/
theorem locatorFrom_close (slots height : ℕ) {step tip fork : ℕ} (hstep : 0 < step)
    (hgap : height ≠ 0 → 2 * step ≤ tip - height + 2) (htip : height ≤ tip)
    (hroom : Enough slots height step) (hheight : height < 2 ^ 53) (hfork : fork ≤ height) :
    ∃ h ∈ locatorFrom (slots + 1) height step, h ≤ fork ∧ fork - h ≤ tip - fork := by
  induction slots generalizing height step with
  | zero =>
    have hzero : height = 0 := by simpa [Enough] using hroom
    exact ⟨height, hroom.mem, by omega, by omega⟩
  | succ slots ih =>
    by_cases htop : fork = height
    · exact ⟨height, hroom.mem, by omega, by omega⟩
    · have hzero : height ≠ 0 := by omega
      have hnext := nextStep_pos (slots + 1) hstep
      have hle := nextStep_le (slots + 1) step
      have hdown := hroom.next hheight
      rw [locatorFrom_succ slots hzero]
      by_cases hbelow : fork ≤ height - nextStep (slots + 1) step
      · obtain ⟨h, hh, hclose⟩ := ih (height - nextStep (slots + 1) step) hnext
          (by omega) (by omega) hdown (by omega) hbelow
        exact ⟨h, List.mem_cons_of_mem _ hh, hclose⟩
      · exact ⟨_, List.mem_cons_of_mem _ hdown.mem, by omega, by omega⟩

/-- The entry found so far is the highest of those that meet a condition, if there are any. -/
def IsHighest (hit : ℕ × Hash256 → Prop) : Option (ℕ × Hash256) → Prop
  | none => ∀ entry, ¬ hit entry
  | some best => hit best ∧ ∀ entry, hit entry → entry.1 ≤ best.1

theorem IsHighest.consider {hit : ℕ × Hash256 → Prop} {best : Option (ℕ × Hash256)}
    (h : IsHighest hit best) (locatorId : Hash256) (entry : ℕ × Hash256) :
    IsHighest (fun e => hit e ∨ (e = entry ∧ locatorId = entry.2))
      (considerHit locatorId best entry) := by
  cases best with
  | none =>
    by_cases hid : locatorId = entry.2
    · have hstep : considerHit locatorId none entry = some entry := if_pos ⟨hid, rfl⟩
      rw [hstep]
      refine ⟨.inr ⟨rfl, hid⟩, fun e he => ?_⟩
      rcases he with he | ⟨rfl, -⟩
      · exact absurd he (h e)
      · exact le_rfl
    · have hstep : considerHit locatorId none entry = none := if_neg fun hand => hid hand.1
      simp_all
  | some best =>
    obtain ⟨hbest, hmax⟩ := h
    by_cases hhigher : locatorId = entry.2 ∧ best.1 < entry.1
    · have hstep : considerHit locatorId (some best) entry = some entry :=
        if_pos ⟨hhigher.1, by simpa using hhigher.2⟩
      rw [hstep]
      refine ⟨.inr ⟨rfl, hhigher.1⟩, fun e he => ?_⟩
      grind
    · have hstep : considerHit locatorId (some best) entry = some best :=
        if_neg fun hand => hhigher ⟨hand.1, by simpa using hand.2⟩
      rw [hstep]
      refine ⟨.inl hbest, fun e he => ?_⟩
      grind

theorem IsHighest.congr {hit hit' : ℕ × Hash256 → Prop} {best : Option (ℕ × Hash256)}
    (h : IsHighest hit best) (heq : ∀ e, hit e ↔ hit' e) : IsHighest hit' best := by
  rwa [show hit' = hit from funext fun e => propext (heq e).symm]

theorem IsHighest.path {hit : ℕ × Hash256 → Prop} {best : Option (ℕ × Hash256)}
    (h : IsHighest hit best) (locatorId : Hash256) (path : List (ℕ × Hash256)) :
    IsHighest (fun e => hit e ∨ (e ∈ path ∧ locatorId = e.2))
      (path.foldl (considerHit locatorId) best) := by
  induction path generalizing hit best with
  | nil => exact h.congr (by simp)
  | cons entry path ih =>
    refine (ih (h.consider locatorId entry)).congr fun e => ?_
    grind

theorem IsHighest.locator {hit : ℕ × Hash256 → Prop} {best : Option (ℕ × Hash256)}
    (h : IsHighest hit best) (locator : List Hash256) (path : List (ℕ × Hash256)) :
    IsHighest (fun e => hit e ∨ (e ∈ path ∧ e.2 ∈ locator))
      (locator.foldl (fun best locatorId => path.foldl (considerHit locatorId) best) best) := by
  induction locator generalizing hit best with
  | nil => exact h.congr (by simp)
  | cons locatorId locator ih =>
    refine (ih (h.path locatorId path)).congr fun e => ?_
    grind

theorem highestLocatorHit_isHighest (locator : List Hash256) (path : List (ℕ × Hash256)) :
    IsHighest (fun e => e ∈ path ∧ e.2 ∈ locator) (highestLocatorHit locator path) := by
  have hnone : IsHighest (fun _ => False) none := fun _ h => h
  exact (hnone.locator locator path).congr (by simp)

/-- A peer's chain has our blocks up to the fork, and no block of ours but those, each at its
own height. -/
structure ForksAt (ours : ℕ → Hash256) (tip : ℕ) (path : List (ℕ × Hash256)) (fork : ℕ) :
    Prop where
  shared : ∀ height ≤ fork, (height, ours height) ∈ path
  apart : ∀ height ≤ tip, ∀ entry ∈ path, ours height = entry.2 → entry.1 = height ∧ height ≤ fork

/-- The highest listed height at or below the fork is the one that the peer finds. -/
theorem ForksAt.hit {ours : ℕ → Hash256} {tip fork h : ℕ} {path : List (ℕ × Hash256)}
    {heights : List ℕ} (hfork : ForksAt ours tip path fork) (hheights : ∀ a ∈ heights, a ≤ tip)
    (hmem : h ∈ heights) (hle : h ≤ fork) (hmax : ∀ a ∈ heights, a ≤ fork → a ≤ h) :
    highestLocatorHit (heights.map ours) path = some (h, ours h) := by
  have hspec := highestLocatorHit_isHighest (heights.map ours) path
  have hhit : (h, ours h) ∈ path ∧ ours h ∈ heights.map ours :=
    ⟨hfork.shared h hle, List.mem_map_of_mem hmem⟩
  cases hfound : highestLocatorHit (heights.map ours) path with
  | none =>
    rw [hfound] at hspec
    exact absurd hhit (hspec (h, ours h))
  | some best =>
    rw [hfound] at hspec
    obtain ⟨⟨hpath, hnamed⟩, hbest⟩ := hspec
    obtain ⟨a, ha, hid⟩ := List.mem_map.mp hnamed
    obtain ⟨hat, hlow⟩ := hfork.apart a (hheights a ha) best hpath hid
    grind

theorem exists_highest {heights : List ℕ} {fork : ℕ} (h : ∃ a ∈ heights, a ≤ fork) :
    ∃ a ∈ heights, a ≤ fork ∧ ∀ b ∈ heights, b ≤ fork → b ≤ a := by
  obtain ⟨a, ha, hle⟩ := h
  have hne : heights.toFinset.filter (· ≤ fork) |>.Nonempty := ⟨a, by simp [ha, hle]⟩
  obtain ⟨top, htop, hmax⟩ := Finset.exists_max_image _ id hne
  simp only [Finset.mem_filter, List.mem_toFinset, id_eq, and_imp] at htop hmax
  exact ⟨top, htop.1, htop.2, hmax⟩

/-- For every `u64` tip the locator lists at most 64 heights, falling strictly from the tip to
zero. For a tip below `2 ^ 53` the highest listed height at or below a fork is no further
from it than the tip, and it is the hit that a peer finds whose chain leaves ours there. -/
theorem locator_is_adequate (tip : ℕ) :
    ((locatorHeights tip).Pairwise (· > ·) ∧ (locatorHeights tip).length ≤ 64 ∧
      (locatorHeights tip).head? = some tip ∧ (locatorHeights tip).getLast? = some 0) ∧
    (tip < 2 ^ 53 → ∀ fork ≤ tip, ∃ h ∈ locatorHeights tip,
      (h ≤ fork ∧ ∀ a ∈ locatorHeights tip, a ≤ fork → a ≤ h) ∧ fork - h ≤ tip - fork ∧
      ∀ ours path, ForksAt ours tip path fork →
        highestLocatorHit ((locatorHeights tip).map ours) path = some (h, ours h)) := by
  obtain ⟨hpairwise, hle, hlength, hlast⟩ :=
    locatorFrom_shape 63 tip Nat.one_pos
  refine ⟨⟨hpairwise, hlength, ?_, hlast⟩, fun hsmall fork hfork => ?_⟩
  · by_cases hzero : tip = 0
    · rw [hzero]
      rfl
    · exact congrArg List.head? (locatorFrom_succ 62 hzero)
  · have hroom : Enough 63 tip 1 := ⟨hsmall, rfl⟩
    obtain ⟨a, ha, halow, haclose⟩ := locatorFrom_close 63 tip Nat.one_pos
      (fun _ => by omega) le_rfl hroom hsmall hfork
    obtain ⟨h, hh, hlow, hmax⟩ := exists_highest ⟨a, ha, halow⟩
    have hclose : fork - h ≤ tip - fork := by
      have := hmax a ha halow
      omega
    exact ⟨h, hh, ⟨hlow, hmax⟩, hclose, fun ours path hforks => hforks.hit hle hh hlow hmax⟩

namespace Sample

def ours (height : ℕ) : Hash256 := BitVec.ofNat 256 height

/-- A peer's chain that leaves ours above height seven. -/
def theirs : List (ℕ × Hash256) :=
  (List.range 12).map fun height => (height, if height ≤ 7 then ours height else ours (height + 100))

end Sample

/-- With a tip at twenty the heights nine, five and zero follow the first ten, so a fork at
seven is found at five. -/
theorem locator_is_adequate_twenty :
    highestLocatorHit ((locatorHeights 20).map Sample.ours) Sample.theirs =
      some (5, Sample.ours 5) := by
  have hforks : ForksAt Sample.ours 20 Sample.theirs 7 :=
    ⟨by decide +kernel, by decide +kernel⟩
  obtain ⟨h, hh, ⟨hlow, hmax⟩, -, hhit⟩ := (locator_is_adequate 20).2 (by decide) 7 (by decide)
  have hfive := hmax 5 (by decide +kernel) (by decide)
  have hnone : ∀ a ∈ locatorHeights 20, a ≤ 7 → a ≤ 5 := by decide +kernel
  obtain rfl : h = 5 := le_antisymm (hnone h hh hlow) hfive
  exact hhit _ _ hforks

end Oregon.Sync
