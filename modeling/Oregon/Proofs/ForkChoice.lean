import Oregon.Sanity.Invariant
import Oregon.Sanity.Sample

/-! The active tip is a heaviest block among those that could be active, and it gives
way only to strictly more work. -/

namespace Oregon

open Lib

section

variable [Crypto] {verifier : SpendVerifier} {s : ChainState}

/-- No retained block that is not marked has more work than the tip, and the tip is
one of them, or the anchor. -/
structure Heaviest (s : ChainState) : Prop where
  max : ∀ id r, s.db.getIndex id = some r → r.validation ≠ .invalid → r.bodyRetained = true →
    r.cumulativeWork ≤ s.tip.cumulativeWork
  tip : s.tip.height = 0 ∨ ∃ r, s.db.getIndex s.tip.blockId = some r ∧ r.bodyRetained = true

omit [Crypto] in
theorem Heaviest.frame {s' : ChainState} (h : Heaviest s) (htip : s'.tip = s.tip)
    (hmax : ∀ id r', s'.db.getIndex id = some r' → r'.validation ≠ .invalid →
      r'.bodyRetained = true → s.db.getIndex id = some r' ∨ r'.cumulativeWork ≤ s.tip.cumulativeWork)
    (hkeep : ∀ r, s.db.getIndex s.tip.blockId = some r → r.bodyRetained = true →
      ∃ r', s'.db.getIndex s.tip.blockId = some r' ∧ r'.bodyRetained = true) : Heaviest s' := by
  refine ⟨fun id r' hr' hvalid hbody => ?_, ?_⟩
  · rw [htip]
    rcases hmax id r' hr' hvalid hbody with hold | hle
    · exact h.max id r' hold hvalid hbody
    · exact hle
  · rw [htip]
    rcases h.tip with hzero | ⟨r, hr, hbody⟩
    · exact Or.inl hzero
    · exact Or.inr (hkeep r hr hbody)

theorem Heaviest.adopt {block : Block} {index : BlockIndexRecord} {forkHeight : ℕ}
    {path : List ReorgCandidate} {undos : List BlockUndo} {staged : UtxoState} {delta : UtxoDelta}
    (h : Heaviest s) (ha : Adopts verifier s block index forkHeight path undos staged delta) :
    Heaviest (s.reorgTo forkHeight path undos staged delta index.tip) := by
  refine ⟨fun id r hr hvalid hbody => ?_, Or.inr ⟨index.withBody.validated, ?_, rfl⟩⟩
  · rw [reorgTo_getIndex] at hr
    rw [reorgTo_tip]
    rcases lookup_pathRecords hr with ⟨-, hold⟩ | ⟨c, hc, -, rfl⟩
    · exact (h.max id r hold hvalid hbody).trans ha.heavy.le
    · exact ha.pathOk.work_le c hc
  · rw [reorgTo_getIndex, reorgTo_tip, ha.candidate.tip_eq]
    exact ha.pathOk.lookup_node ha.candidate (fun c => c.index.validated) _ ha.pathOk.top_mem

theorem Heaviest.change {request : Request} {s' : ChainState} (hs : Consistent s) (h : Heaviest s)
    (hc : Change verifier s request s') : Heaviest s' := by
  cases hc with
  | idle => exact h.frame rfl (fun _ _ hr _ _ => Or.inl hr) fun r hr hbody => ⟨r, hr, hbody⟩
  | headerStored fresh =>
    refine h.frame (ChainState.prefer_tip _ _) (fun id r hr _ hbody => Or.inl ?_) fun r hr hbody =>
      ⟨r, ?_, hbody⟩
    · rw [storeHeader_getIndex] at hr
      split_ifs at hr
      · obtain rfl := Option.some.inj hr
        rw [fresh.body] at hbody
        cases hbody
      · exact hr
    · rw [storeHeader_getIndex, if_neg (fresh.ne_known hr)]
      exact hr
  | sideStored candidate _ light =>
    refine h.frame rfl (fun id r hr _ _ => ?_) fun r hr hbody => ⟨r, ?_, hbody⟩
    · rw [storeSide_getIndex] at hr
      split_ifs at hr
      · obtain rfl := Option.some.inj hr
        exact Or.inr light
      · exact Or.inl hr
    · rw [storeSide_getIndex, if_neg]
      · exact hr
      · intro heq
        exact candidate.not_active hs.active _ (heq ▸ hs.active.top)
  | @marked block index forkHeight path suffix rejects =>
    refine h.frame rfl (fun id r hr hvalid _ => ?_) fun r hr hbody => ⟨r, ?_, hbody⟩
    · rcases lookup_pathRecords hr with ⟨-, hold⟩ | ⟨c, -, -, rfl⟩
      · exact Or.inl hold
      · exact absurd rfl hvalid
    · rw [ChainState.markPath, OregonDb.getIndex, lookup_applyChanges_of_notMem]
      · exact hr
      · rw [List.map_map]
        intro hin
        obtain ⟨c, hc, heq⟩ := List.mem_map.mp hin
        refine rejects.pathOk.not_active hs.active rejects.candidate c (rejects.mem_path c hc)
          s.tip.height ?_
        rw [hs.active.top]
        exact congrArg some heq.symm
  | adopted adopts => exact h.adopt adopts
  | @pruned db' pruned =>
    refine h.frame rfl (fun id r' hr' hvalid hbody => ?_) fun r hr hbody => ?_
    · obtain ⟨r, hr, rfl⟩ := pruned.getIndex_some hr'
      rw [Bool.and_eq_true] at hbody
      exact Or.inr (h.max id r hr hvalid hbody.1)
    · obtain ⟨r₀, hr₀, hheight, hfull, -⟩ := hs.active.record _ _ hs.active.top
      obtain rfl := Option.some.inj (hr.symm.trans hr₀)
      have hkeep : keepsBody s.db s.tip.height (s.tip.blockId, r) = true :=
        keepsBody_active (hheight ▸ hs.active.top) hfull
          (by rw [hheight]; exact Nat.sub_le _ _) hheight.le
      exact ⟨r, pruned.same hr hkeep, hbody⟩

/-- A call that moves the tip moves it to more work. -/
theorem Change.tip_work {request : Request} {s' : ChainState} (hc : Change verifier s request s')
    (hne : s'.tip ≠ s.tip) : s.tip.cumulativeWork < s'.tip.cumulativeWork := by
  cases hc with
  | adopted adopts =>
    rw [reorgTo_tip]
    exact adopts.heavy
  | headerStored => exact absurd (ChainState.prefer_tip _ _) hne
  | _ => exact absurd rfl hne

theorem Heaviest.initial (config : ChainConfig) : Heaviest (.initial config) := by
  refine ⟨fun id r hr _ hbody => ?_, Or.inl rfl⟩
  rw [initial_getIndex] at hr
  split_ifs at hr
  obtain rfl := Option.some.inj hr
  cases hbody

/-- In every state of every run the tip is a heaviest one among the retained blocks
that are not marked invalid, and the next call can only move it to strictly more work. -/
theorem tip_is_heaviest {config : ChainConfig} {s₀ : ChainState} {calls : List Call}
    (hboot : Bootstrapped config s₀) :
    Heaviest (run verifier s₀ calls) ∧
    (∃ r, (run verifier s₀ calls).db.getIndex (run verifier s₀ calls).tip.blockId = some r ∧
      r.validation = .fullyValidated ∧
      r.cumulativeWork = (run verifier s₀ calls).tip.cumulativeWork) ∧
    ∀ call, (step verifier (run verifier s₀ calls) call).1.tip ≠ (run verifier s₀ calls).tip →
      (run verifier s₀ calls).tip.cumulativeWork <
        (step verifier (run verifier s₀ calls) call).1.tip.cumulativeWork := by
  have hs : Consistent (run verifier s₀ calls) := (run_consistent hboot).1
  refine ⟨?_, ?_, fun call hne => (step_change hs call).tip_work hne⟩
  · obtain ⟨-, rfl⟩ := bootstrapped_eq hboot
    refine (run_inv (P := fun t => Consistent t ∧ Heaviest t)
      ⟨.initial config, .initial config⟩ ?_).2
    rintro t call - ⟨ht, hmax⟩
    have hchange : Change verifier t call.request _ := step_change ht call
    exact ⟨ht.change hchange, hmax.change ht hchange⟩
  · obtain ⟨r, hr, htip⟩ := hs.active.tipRecord
    obtain ⟨r', hr', -, hfull, -⟩ := hs.active.record _ _ hs.active.top
    obtain rfl := Option.some.inj (hr.symm.trans hr')
    exact ⟨r, hr, hfull, congrArg Tip.cumulativeWork htip⟩

end

open Sample in
theorem tip_is_heaviest_sample : ∃ s₀ : ChainState, Bootstrapped config s₀ ∧
    Heaviest (run verifier s₀ [deliver first, deliver rivalFirst]) ∧
    (run verifier s₀ [deliver first, deliver rivalFirst]).tip.blockId = first.header.blockId ∧
    (run verifier s₀ [deliver first, deliver rivalFirst]).tip.cumulativeWork <
      (step verifier (run verifier s₀ [deliver first, deliver rivalFirst])
        (deliver rivalSecond)).1.tip.cumulativeWork := by
  have hboot : Bootstrapped config (.initial config) := bootstrapped_initial (by decide +kernel)
  have h : Heaviest (run verifier (.initial config) [deliver first, deliver rivalFirst]) ∧ _ :=
    tip_is_heaviest hboot
  exact ⟨_, hboot, h.1, by decide +kernel, h.2.2 (deliver rivalSecond) (by decide +kernel)⟩

end Oregon
