import Oregon.Sanity.Invariant

/-! The states a node can be in: opened on an empty database, changed by calls, and opened
again on what it has stored. They are all consistent. -/

namespace Oregon

open Lib

section

variable [Crypto]

inductive Reached (config : ChainConfig) : ChainState → Prop where
  | opened {s : ChainState} (boot : Bootstrapped config s) : Reached config s
  | stepped {s : ChainState} (verifier : SpendVerifier) (call : Call) (before : Reached config s) :
      Reached config (step verifier s call).1
  | reopened {s s' : ChainState} {fault : Option String} (before : Reached config s)
      (reopen : ChainState.openDb s.db config fault = .ok s') : Reached config s'

theorem reached_run {config : ChainConfig} {verifier : SpendVerifier} {s : ChainState}
    (h : Reached config s) (calls : List Call) : Reached config (run verifier s calls) :=
  run_inv h fun _ call _ ht => ht.stepped verifier call

theorem loadPreferredHeaderTip_eq {s : ChainState} {anchorId : Hash256} {tip : Tip}
    (hs : Consistent s) (h : loadPreferredHeaderTip s.db anchorId = .ok tip) :
    tip = s.headerTip := by
  obtain ⟨r, hr, htip⟩ := hs.headerTip
  simp only [loadPreferredHeaderTip, hs.storedHeaderTip, bind_eq_ok, orElse_eq_ok, ensure_eq_ok,
    Option.some.injEq, exists_eq_left', exists_unit, pure_eq_ok, hr] at h
  obtain ⟨-, -, -, -, -, -, -, rfl⟩ := h
  rw [← htip]
  rfl

theorem checkActiveHeight_work {db : OregonDb} {config : ChainConfig} {cursor height : ℕ}
    {scan scan' : ActiveScan} {id : Hash256} {r : BlockIndexRecord}
    (hid : db.activeIdAtHeight height = some id) (hr : db.getIndex id = some r)
    (h : checkActiveHeight db config cursor scan height = .ok scan') :
    scan'.finalWork = some r.cumulativeWork := by
  simp only [checkActiveHeight, bind_eq_ok, orElse_eq_ok, ensure_eq_ok, hid, hr, Option.some.injEq,
    exists_eq_left', exists_unit] at h
  grind [bind_eq_ok, pure_eq_ok]

/-- What is read from the stored chain is what was in memory, apart from the UTXO set. -/
theorem reopen_eq {s s' : ChainState} (hs : Consistent s)
    (h : reopen s.db s.config s.tip.blockId s.tip.height = .ok s') :
    s' = { s with utxos := s'.utxos, sessionHealth := .healthy } ∧ s.db.health = some .healthy := by
  simp only [reopen, bind_eq_ok, orElse_eq_ok, ensure_eq_ok, exists_unit, mapError_eq_ok,
    pure_eq_ok] at h
  obtain ⟨_, -, -, _, -, -, health, hhealth, hchecked, _, -, -, scan, hscan, -, work, hwork,
    headerTip, hheaderTip, utxos, -, rfl⟩ := h
  have hhealthy : health = .healthy := by
    cases health with
    | healthy => rfl
    | reindexRequired => cases hchecked
  obtain ⟨r, hr, htip⟩ := hs.active.tipRecord
  have hlast : work = s.tip.cumulativeWork := by
    simp only [List.range_succ, List.foldlM_append, List.foldlM_cons, List.foldlM_nil, bind_pure,
      bind_eq_ok] at hscan
    obtain ⟨before, -, hscan⟩ := hscan
    rw [checkActiveHeight_work hs.active.top hr hscan, Option.some.injEq] at hwork
    rw [← hwork, ← htip]
    rfl
  obtain rfl := loadPreferredHeaderTip_eq hs hheaderTip
  simp_all

theorem Consistent.reopen {s s' : ChainState} {fault : Option String} (hs : Consistent s)
    (h : ChainState.openDb s.db s.config fault = .ok s') :
    Consistent s' ∧ s'.config = s.config := by
  simp only [ChainState.openDb, hs.storedTip, bind_eq_ok, exists_unit] at h
  obtain ⟨heq, hhealth⟩ := reopen_eq hs h.2
  rw [heq]
  exact ⟨⟨hs.index, ⟨hs.active.bottom, hs.active.top, hs.active.above, hs.active.record,
    hs.active.tipRecord⟩, hs.headerTip, hs.storedTip, hs.storedHeaderTip, hs.storedConfig,
    fun _ => hhealth, hs.bodies⟩, rfl⟩

theorem Reached.consistent {config : ChainConfig} {s : ChainState} (h : Reached config s) :
    Consistent s ∧ s.config = config := by
  induction h with
  | opened boot =>
    obtain ⟨-, rfl⟩ := bootstrapped_eq boot
    exact ⟨.initial config, rfl⟩
  | stepped verifier call before ih =>
    have hchange : Change verifier _ call.request _ := step_change ih.1 call
    exact ⟨ih.1.change hchange, hchange.config_eq.trans ih.2⟩
  | reopened before reopen ih =>
    obtain ⟨hs, rfl⟩ := ih
    exact hs.reopen reopen

end

end Oregon
