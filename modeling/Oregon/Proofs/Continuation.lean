import Oregon.Proofs.Asert
import Oregon.Proofs.Tree

/-! When a branch can be continued. The rules bound a timestamp only from below, by the
median of the last timestamps of the branch, so a branch ends for good where that median
is the largest timestamp there is, and nowhere else. -/

namespace Oregon

open Lib

theorem medianTimePast_ok {window : List UInt64} (hne : window ≠ []) (hlength : window.length ≤ 11) :
    ∃ median, medianTimePast window = .ok median := by
  have hpos := List.length_pos_iff.mpr hne
  have hmiddle : (window.insertionSort (· ≤ ·)).length / 2 <
      (window.insertionSort (· ≤ ·)).length := by
    rw [List.length_insertionSort]
    omega
  refine ⟨(window.insertionSort (· ≤ ·))[(window.insertionSort (· ≤ ·)).length / 2], ?_⟩
  grind [medianTimePast, ensure_ok, ok_bind, orElse_some]

section

variable [Crypto]

theorem validateHeaderPrePow_time {header : BlockHeader} {context : HeaderContext}
    {params : ConsensusParams} {facts : PrePowHeaderFacts}
    (h : validateHeaderPrePow header context params = .ok facts) :
    ∃ median target, medianTimePast context.mtpWindow = .ok median ∧ median < header.timestamp ∧
      requiredTarget context.height context.parent.timestamp context.genesisTimestamp params =
        .ok target ∧ target.toNat ≤ params.powLimit.toNat := by
  simp only [validateHeaderPrePow, Target.validateAgainst, bind_eq_ok, ensure_eq_ok,
    exists_and_left, exists_const, pure_eq_ok] at h
  grind

theorem validateHeaderPrePow_of {header : BlockHeader} {context : HeaderContext}
    {params : ConsensusParams} {median : UInt64} {target : Target} (hheight : context.height ≠ 0)
    (hparent : header.previousBlock = context.parent.blockId)
    (hmedian : medianTimePast context.mtpWindow = .ok median) (htime : median < header.timestamp)
    (hrequired : requiredTarget context.height context.parent.timestamp context.genesisTimestamp
      params = .ok target) (hlimit : target.toNat ≤ params.powLimit.toNat)
    (htarget : header.difficultyCommitment = target.value) :
    ∃ facts, validateHeaderPrePow header context params = .ok facts := by
  have hactual : Target.fromLeBytes header.difficultyCommitment = .ok target := by
    rw [htarget, Target.fromLeBytes, dif_neg target.ne_zero]
  simp only [validateHeaderPrePow, Target.validateAgainst, bind_eq_ok, ensure_eq_ok,
    exists_and_left, exists_const, pure_eq_ok]
  simp_all

/-- Some child of `id`, with the record `r`, passes the checks before proof of work, with the
timestamps that the branch view returns. -/
def Continuable (config : ChainConfig) (db : OregonDb) (id : Hash256) (r : BlockIndexRecord) : Prop :=
  ∃ window height header facts, mtpWindow db id = .ok window ∧
    checkedAdd r.height 1 = some height ∧ header.previousBlock = id ∧
    validateHeaderPrePow header ⟨height, r.header, config.genesisTimestamp, window⟩ config.params =
      .ok facts

variable {config : ChainConfig} {db : OregonDb} {id : Hash256} {r : BlockIndexRecord}
  {window : List UInt64} {median : UInt64}

theorem mtpWindow_ok (hok : IndexOk config db.blockIndex) (hr : db.getIndex id = some r)
    (hsound : Sound db.blockIndex id) :
    ∃ window median, mtpWindow db id = .ok window ∧ medianTimePast window = .ok median := by
  obtain ⟨window, hwindow⟩ : ∃ window, mtpWindow db id = .ok window :=
    timestampsFrom_ok hok hr hsound
  have hlength : window.length = min 11 (r.height + 1) := by
    rw [timestampsFrom_eq hwindow, List.length_map, branchHeaders_length hok hr]
  have hpos : 0 < window.length := by omega
  obtain ⟨median, hmedian⟩ := medianTimePast_ok (List.ne_nil_of_length_pos hpos) (by omega)
  exact ⟨window, median, hwindow, hmedian⟩

omit [Crypto] in
theorem requiredTarget_le {height : ℕ} {parent genesis : UInt64} {params : ConsensusParams}
    {t : Target} (hpos : 1 ≤ height) (hheight : height < 2 ^ 64)
    (ht : requiredTarget height parent genesis params = .ok t) :
    t.toNat ≤ params.powLimit.toNat ↔
      (height = 1 → params.initialTarget.toNat ≤ params.powLimit.toNat) := by
  obtain ⟨t', ht', hcases⟩ := requiredTarget_ok parent genesis params hpos hheight
  rw [ht, Except.ok.injEq] at ht'
  subst ht'
  rcases hcases with ⟨rfl, rfl⟩ | ⟨hlow, hvalue⟩
  · simp
  · have hclamp : t.toNat ≤ params.powLimit.toNat := by
      rw [hvalue]
      exact (clampTarget_mem params.powLimit.toNat_pos).2
    exact ⟨fun _ hone => absurd hone (by omega), fun _ => hclamp⟩

theorem continuable_iff (hok : IndexOk config db.blockIndex) (hr : db.getIndex id = some r)
    (hwindow : mtpWindow db id = .ok window) (hmedian : medianTimePast window = .ok median) :
    Continuable config db id r ↔ r.height + 1 < 2 ^ 64 ∧ median.toNat < 2 ^ 64 - 1 ∧
      (r.height = 0 → config.params.initialTarget.toNat ≤ config.params.powLimit.toNat) := by
  constructor
  · rintro ⟨window', height, header, facts, hwindow', hadd, hparent, hpass⟩
    obtain rfl := Except.ok.inj (hwindow.symm.trans hwindow')
    obtain ⟨rfl, hrange⟩ := checkedAdd_eq_some.mp hadd
    obtain ⟨median', target, hmedian', htime, hrequired, hlimit⟩ := validateHeaderPrePow_time hpass
    obtain rfl := Except.ok.inj (hmedian.symm.trans hmedian')
    refine ⟨hrange, ?_, fun hzero => ?_⟩
    · have hlt := UInt64.lt_iff_toNat_lt.mp htime
      have hmax := header.timestamp.toNat_lt
      omega
    · exact (requiredTarget_le (by omega) hrange hrequired).mp hlimit (by omega)
  · rintro ⟨hrange, hbelow, hanchor⟩
    obtain ⟨target, hrequired, -⟩ :=
      requiredTarget_ok r.header.timestamp config.genesisTimestamp config.params
        (Nat.le_add_left 1 r.height) hrange
    have hlimit := (requiredTarget_le (Nat.le_add_left 1 r.height) hrange hrequired).mpr
      fun hone => hanchor (by omega)
    have htime : median < -1 := by
      refine UInt64.lt_iff_toNat_lt.mpr ?_
      simp_all
    -- a child with the largest timestamp passes whenever any child does
    obtain ⟨facts, hpass⟩ : ∃ facts, validateHeaderPrePow ⟨1, id, 0, -1, target.value, 0⟩
        ⟨r.height + 1, r.header, config.genesisTimestamp, window⟩ config.params = .ok facts :=
      validateHeaderPrePow_of (Nat.succ_ne_zero _) (hok.ident id r hr).1.symm hmedian htime
        hrequired hlimit rfl
    exact ⟨window, _, _, facts, hwindow, checkedAdd_eq_some.mpr ⟨rfl, hrange⟩, rfl, hpass⟩

/-- In every state of every run a header with no mark on its branch can be continued exactly
when the median of the last timestamps of its branch is not the largest one (for a child of
the anchor the initial target must also be within the limit, and heights are 64-bit numbers).
The median is that of the window the branch view returns. -/
theorem branch_continues_below_last_timestamp {verifier : SpendVerifier} {s₀ : ChainState}
    {calls : List Call} (hboot : Bootstrapped config s₀) :
    ∀ id r, (run verifier s₀ calls).db.getIndex id = some r →
      Sound (run verifier s₀ calls).db.blockIndex id →
      ∃ window median, mtpWindow (run verifier s₀ calls).db id = .ok window ∧
        medianTimePast window = .ok median ∧
        (Continuable config (run verifier s₀ calls).db id r ↔
          r.height + 1 < 2 ^ 64 ∧ median.toNat < 2 ^ 64 - 1 ∧
          (r.height = 0 → config.params.initialTarget.toNat ≤ config.params.powLimit.toNat)) := by
  obtain ⟨hs, hconfig⟩ : Consistent (run verifier s₀ calls) ∧ _ := run_consistent hboot
  have hindex := hs.index
  rw [hconfig] at hindex
  intro id r hr hsound
  obtain ⟨window, median, hwindow, hmedian⟩ := mtpWindow_ok hindex hr hsound
  exact ⟨window, median, hwindow, hmedian, continuable_iff hindex hr hwindow hmedian⟩

end

section Sample

open Sample

theorem branch_continues_below_last_timestamp_sample : ∃ s₀ r, Bootstrapped config s₀ ∧
    (run verifier s₀ forkCalls).db.getIndex rivalSecond.header.blockId = some r ∧ r.height = 2 ∧
    Sound (run verifier s₀ forkCalls).db.blockIndex rivalSecond.header.blockId ∧
    Continuable config (run verifier s₀ forkCalls).db rivalSecond.header.blockId r := by
  have hboot : Bootstrapped config (.initial config) := bootstrapped_initial (by decide +kernel)
  have hrecord : ((run verifier (.initial config) forkCalls).db.getIndex
      rivalSecond.header.blockId).map BlockIndexRecord.height = some 2 := by decide +kernel
  obtain ⟨r, hr, hheight⟩ := Option.map_eq_some_iff.mp hrecord
  have hunmarked : ∀ e ∈ (run verifier (.initial config) forkCalls).db.blockIndex.toList,
      e.2.validation ≠ .invalid := by decide +kernel
  have hsound : Sound (run verifier (.initial config) forkCalls).db.blockIndex
      rivalSecond.header.blockId := fun a r _ ha =>
    hunmarked (a, r) (Std.ExtTreeMap.mem_toList_iff_getElem?_eq_some.mpr ha)
  obtain ⟨window, median, hwindow, hmedian, hiff⟩ :=
    @branch_continues_below_last_timestamp _ config verifier _ forkCalls hboot _ r hr hsound
  have hvalue : mtpWindow (run verifier (.initial config) forkCalls).db
      rivalSecond.header.blockId = .ok [1600, 1300, 1000] := by decide +kernel
  obtain rfl := Except.ok.inj (hvalue.symm.trans hwindow)
  obtain rfl : 1300 = median := Except.ok.inj (Eq.trans (by decide +kernel) hmedian)
  refine ⟨_, r, hboot, hr, hheight, hsound, hiff.mpr ⟨?_, by decide, fun hzero => ?_⟩⟩
  · rw [hheight]
    decide
  · omega

def lastMoment : Block := block anchor.blockId (-1) 21 [coinbase 1 21]

/-- After a first header with the largest timestamp its branch has no second one. -/
theorem branch_ends_at_last_timestamp : ∃ s₀ r, Bootstrapped config s₀ ∧
    (run verifier s₀ [announce lastMoment]).db.getIndex lastMoment.header.blockId = some r ∧
    r.validation ≠ .invalid ∧ r.height + 1 < 2 ^ 64 ∧
    ¬ Continuable config (run verifier s₀ [announce lastMoment]).db lastMoment.header.blockId r := by
  have hboot : Bootstrapped config (.initial config) := bootstrapped_initial (by decide +kernel)
  have hrecord : (run verifier (.initial config) [announce lastMoment]).db.getIndex
      lastMoment.header.blockId = some ⟨lastMoment.header, anchor.blockId, 1, 1, .headerValidated,
        false⟩ := by decide +kernel
  have hvalue : mtpWindow (run verifier (.initial config) [announce lastMoment]).db
      lastMoment.header.blockId = .ok [-1, 1000] := by decide +kernel
  have hmedian : medianTimePast [-1, 1000] = .ok (-1) := by decide +kernel
  refine ⟨_, _, hboot, hrecord, by decide, by decide, ?_⟩
  rintro ⟨window, height, header, facts, hwindow, -, -, hpass⟩
  obtain rfl := Except.ok.inj (hvalue.symm.trans hwindow)
  -- no timestamp comes after the largest one
  grind [validateHeaderPrePow_time]

end Sample

end Oregon
