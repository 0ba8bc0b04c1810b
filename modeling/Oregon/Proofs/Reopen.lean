import Oregon.Proofs.Headers
import Oregon.Proofs.Ledger
import Oregon.Sanity.Retention
import Oregon.Sanity.Walks

/-! Closing and opening again. The checks of an opening pass on the database of a run that
kept the preferred header sound and the prune cursor a window below the tip, and whose
blocks the decoder reads back; what is opened is then the very state that was closed. -/

namespace Oregon

open Lib

section

variable [Crypto] {verifier : SpendVerifier} {s : ChainState} {c : ℕ}

theorem getBlock_within {db : OregonDb} {id : Hash256} {block : Block}
    (hstored : db.blocks[id]? = some block) (hwithin : block.Within .default)
    (hid : block.header.blockId = id) : db.getBlock id = .ok (some block) := by
  rw [OregonDb.getBlock, hstored]
  simp [Block.decode_encode hwithin, Except.mapError, ok_bind, ensure, hid, pure, Except.pure]

omit [Crypto] in
theorem tryFromEntries_toList (m : UtxoMap) : UtxoState.tryFromEntries m.toList = .ok ⟨m⟩ := by
  have hfold := insertEach_ok UtxoError.duplicateOutpoint (nodup_toList_keys m)
    (m := (∅ : UtxoMap)) fun _ _ => Std.ExtTreeMap.not_mem_empty
  have hsame : (∅ : UtxoMap).insertMany m.toList = m := by
    refine Std.ExtTreeMap.ext_getElem? fun o => ?_
    cases ho : m[o]? with
    | none => simp_all
    | some entry => grind [lookup_insertMany_of_mem, nodup_toList_keys]
  rw [hsame] at hfold
  rw [UtxoState.tryFromEntries, hfold]
  rfl

theorem loadPreferredHeaderTip_ok (hs : Consistent s)
    (hsound : Sound s.db.blockIndex s.headerTip.blockId) :
    loadPreferredHeaderTip s.db s.config.anchorHeader.blockId = .ok s.headerTip := by
  obtain ⟨r, hr, htip⟩ := hs.headerTip
  have hheight : r.height = s.headerTip.height := congrArg Tip.height htip
  have hwork : r.cumulativeWork = s.headerTip.cumulativeWork := congrArg Tip.cumulativeWork htip
  obtain ⟨found, hfound, hreach⟩ := ancestorIdAtHeight_ok hs.index hr hsound 0
  obtain ⟨a, q, rfl, hq, hzero⟩ := hreach (Nat.zero_le _)
  obtain ⟨rfl, -⟩ := hs.index.eq_anchor hq hzero
  simp only [loadPreferredHeaderTip, hs.storedHeaderTip, bind_eq_ok, orElse_eq_ok, ensure_eq_ok,
    exists_unit, pure_eq_ok]
  exact ⟨_, rfl, r, hr, hheight, hsound.valid hr, _, hfound, _, rfl, rfl, by rw [hwork]⟩

section Scan

/-- The body and the undo record of a retained active block are there and can be read. -/
def Readable (s : ChainState) : Prop :=
  ∀ height id r, s.db.activeIdAtHeight height = some id → s.db.getIndex id = some r →
    r.bodyRetained = true → checkRetained s.db height id = .ok ()

theorem checkActiveHeight_succ (hs : Consistent s) (hret : Retained s c) (hread : Readable s)
    {height : ℕ} {below id : Hash256} {p r : BlockIndexRecord}
    (hbelow : s.db.activeIdAtHeight height = some below) (hp : s.db.getIndex below = some p)
    (hid : s.db.activeIdAtHeight (height + 1) = some id) (hr : s.db.getIndex id = some r) :
    checkActiveHeight s.db s.config (s.tip.height - REORG_WINDOW)
        ⟨some below, p.cumulativeWork, some p.cumulativeWork⟩ (height + 1) =
      .ok ⟨some id, r.cumulativeWork, some r.cumulativeWork⟩ := by
  obtain ⟨r₀, hr₀, hheight, hfull, hparent⟩ := hs.active.record _ id hid
  obtain rfl := Option.some.inj (hr.symm.trans hr₀)
  obtain rfl : below = r.parent := Option.some.inj (hbelow.symm.trans (hparent height rfl))
  obtain ⟨p₀, hp₀, hchild⟩ := hs.index.parent hr (by omega)
  obtain rfl := Option.some.inj (hp.symm.trans hp₀)
  obtain ⟨t, ht, hle, hwork⟩ := hchild.work
  have hbody : ¬ (s.tip.height - REORG_WINDOW < height + 1 ∧ r.bodyRetained = false) := by
    rintro ⟨hlt, hnone⟩
    rw [hret.body _ id r (hret.safe.trans_lt hlt) hid hr] at hnone
    cases hnone
  simp only [checkActiveHeight, checkLinkedRecord, Target.validateAgainst, bind_eq_ok, orElse_eq_ok,
    ensure_eq_ok, exists_unit, mapError_eq_ok, pure_eq_ok, Nat.succ_ne_zero, if_false]
  refine ⟨id, hid, r, hr, hheight, hfull, ⟨_, rfl, rfl, t, ht, hle, hwork, hbody, ?_⟩, rfl⟩
  split_ifs with hkept
  · exact hread _ id r hid hr hkept
  · rfl

theorem checkActive_ok (hs : Consistent s) (hret : Retained s c) (hread : Readable s)
    {height : ℕ} (hle : height ≤ s.tip.height) :
    ∃ id r, s.db.activeIdAtHeight height = some id ∧ s.db.getIndex id = some r ∧
      (List.range (height + 1)).foldlM
        (checkActiveHeight s.db s.config (s.tip.height - REORG_WINDOW)) ⟨none, 0, none⟩ =
        .ok ⟨some id, r.cumulativeWork, some r.cumulativeWork⟩ := by
  induction height with
  | zero =>
    refine ⟨_, _, hs.active.bottom, hs.index.anchor, ?_⟩
    simp only [List.range_succ, List.range_zero, List.nil_append, List.foldlM_cons, List.foldlM_nil,
      checkActiveHeight, checkAnchorRecord, bind_eq_ok, orElse_eq_ok, ensure_eq_ok, exists_unit,
      if_true, pure_eq_ok]
    exact ⟨_, ⟨_, hs.active.bottom, _, hs.index.anchor, rfl, rfl, ⟨⟨rfl, rfl⟩, rfl, rfl⟩, rfl⟩, rfl⟩
  | succ height ih =>
    obtain ⟨below, p, hbelow, hp, hscan⟩ := ih (by omega)
    obtain ⟨id, hid⟩ := hs.active.defined hle
    obtain ⟨r, hr, -⟩ := hs.active.record _ id hid
    refine ⟨id, r, hid, hr, ?_⟩
    rw [List.range_succ, List.foldlM_append, hscan, ok_bind, List.foldlM_cons,
      checkActiveHeight_succ hs hret hread hbelow hp hid hr]
    rfl

end Scan

theorem reopen_ok (hs : Consistent s) (hret : Retained s c) (hread : Readable s)
    (hsound : Sound s.db.blockIndex s.headerTip.blockId) (hstored : s.db.utxo = s.utxos.entries)
    (hhealthy : s.sessionHealth = .healthy) :
    reopen s.db s.config s.tip.blockId s.tip.height = .ok s := by
  obtain ⟨id, r, hid, hr, hscan⟩ := checkActive_ok hs hret hread (le_refl s.tip.height)
  obtain rfl : s.tip.blockId = id := Option.some.inj (hs.active.top.symm.trans hid)
  obtain ⟨r₀, hr₀, htip⟩ := hs.active.tipRecord
  obtain rfl := Option.some.inj (hr.symm.trans hr₀)
  have hwork : r.cumulativeWork = s.tip.cumulativeWork := congrArg Tip.cumulativeWork htip
  have hutxos : UtxoState.tryFromEntries s.db.iterUtxos = .ok s.utxos := by
    rw [OregonDb.iterUtxos, tryFromEntries_toList, hstored]
  simp only [reopen, bind_eq_ok, orElse_eq_ok, ensure_eq_ok, exists_unit, mapError_eq_ok, pure_eq_ok,
    hscan, hutxos, loadPreferredHeaderTip_ok hs hsound, Except.ok.injEq, exists_eq_left']
  refine ⟨_, hs.storedConfig.1, rfl, _, hs.storedConfig.2, rfl, _, hs.storedHealth hhealthy, rfl,
    c, hret.stored, hret.safe, trivial, _, rfl, ?_⟩
  rw [hwork, ← hhealthy]

/-- The call is safe for the preferred header and for the prune cursor, and the decoder
reads back the block it delivers. -/
structure ReopenSafe (verifier : SpendVerifier) (s : ChainState) (call : Call) : Prop where
  preferred : PreferredSafe verifier s call
  cursor : KeepsCursor s call
  within : ∀ block, call.request = .acceptBlock block → block.Within .default

/-- A run of safe calls that ends healthy can be closed and opened again, and opening
gives back the same state: the tips, the UTXO set and all the rest. -/
theorem reopen_after_run {config : ChainConfig} {s₀ : ChainState} {calls : List Call}
    (hboot : Bootstrapped config s₀)
    (hfree : CollisionFree (chainTransactions (deliveredBlocks calls)))
    (hsafe : Meets (ReopenSafe verifier) verifier s₀ calls)
    (hhealthy : (run verifier s₀ calls).sessionHealth = .healthy) (fault : Option String) :
    ChainState.openDb (run verifier s₀ calls).db config fault = .ok (run verifier s₀ calls) := by
  obtain ⟨hs, chain, hchain⟩ : Consistent (run verifier s₀ calls) ∧ _ := run_replays hboot hfree
  have hconfig : (run verifier s₀ calls).config = config := (run_consistent hboot).2
  obtain ⟨hvalid, rfl⟩ := bootstrapped_eq hboot
  obtain ⟨-, hsound, c, hret⟩ := hsafe.run_inv (Q := fun t => Consistent t ∧
      Sound t.db.blockIndex t.headerTip.blockId ∧ ∃ c, Retained t c)
    ⟨.initial config, (Consistent.initial config).active.sound
      (Consistent.initial config).active.top, 0, .initial config⟩ (by
      rintro t call hcall ⟨ht, hsound, c, hret⟩
      have hchange : Change verifier t call.request _ := step_change ht call
      obtain ⟨c', -, hret'⟩ := hret.step verifier ht hcall.cursor
      exact ⟨ht.change hchange, sound_step ht hsound hcall.preferred, c', hret'⟩)
  have hread : Readable (run verifier (.initial config) calls) := by
    intro height id r hid hr hbody
    obtain ⟨block, hblock, hheader⟩ := hs.bodies id r hr hbody
    obtain ⟨undo, hundo⟩ := hret.undo height id r hid hr hbody
    have hwithin : block.Within .default := by
      obtain ⟨call, hcall, hdelivers⟩ := List.mem_filterMap.mp (hchain.kept id block hblock)
      obtain ⟨_, ht⟩ := hsafe.exists_state hcall
      refine ht.within block ?_
      split at hdelivers
      · next hrequest => rw [hrequest, Option.some.inj hdelivers]
      · cases hdelivers
    have hget := getBlock_within hblock hwithin (by rw [hheader, (hs.index.ident id r hr).1])
    simp only [checkRetained, hget, hundo, bind_eq_ok, mapError_eq_ok, ensure_eq_ok, exists_unit]
    exact ⟨_, rfl, rfl, rfl⟩
  have hreopen := reopen_ok hs hret hread hsound hchain.stored hhealthy
  rw [hconfig] at hreopen
  rw [ChainState.openDb, hvalid, hs.storedTip]
  exact hreopen

end

open Sample in
/-- After a branch that holds the preferred header was rejected, the node is healthy but
its database cannot be opened any more. -/
theorem reopen_fails : ∃ s₀ : ChainState, Bootstrapped config s₀ ∧
    (run verifier s₀ badCalls).sessionHealth = .healthy ∧
    ChainState.openDb (run verifier s₀ badCalls).db config none =
      .error (.corruptState "preferred header tip is marked invalid") := by
  have hboot : Bootstrapped config (.initial config) := bootstrapped_initial (by decide +kernel)
  have herror : (ChainState.openDb (run verifier (.initial config) badCalls).db config none).map
      (fun _ => ()) = .error (.corruptState "preferred header tip is marked invalid") := by
    decide +kernel
  refine ⟨_, hboot, by decide +kernel, ?_⟩
  cases hopen : ChainState.openDb (run verifier (.initial config) badCalls).db config none with
  | error e =>
    rw [hopen] at herror
    exact congrArg Except.error (Except.error.inj herror)
  | ok t =>
    rw [hopen] at herror
    cases herror

open Sample in
/-- A run with a reorganization and a prune, closed and opened again. -/
theorem reopen_after_run_sample : ∃ s₀ : ChainState, Bootstrapped config s₀ ∧
    Meets (ReopenSafe verifier) verifier s₀ (forkCalls ++ [⟨.prune, .none⟩]) ∧
    (run verifier s₀ (forkCalls ++ [⟨.prune, .none⟩])).tip.blockId = rivalSecond.header.blockId ∧
    ChainState.openDb (run verifier s₀ (forkCalls ++ [⟨.prune, .none⟩])).db config none =
      .ok (run verifier s₀ (forkCalls ++ [⟨.prune, .none⟩])) := by
  have hboot : Bootstrapped config (.initial config) := bootstrapped_initial (by decide +kernel)
  have hsafe : ∀ s block, rejectedIds verifier s block (deliver block).faults = [] ∧
      s.db.pruneCursor = some 0 ∧ Block.decode block.encode .default = .ok block →
      ReopenSafe verifier s (deliver block) := by
    rintro s block ⟨hnone, hcursor, hdecode⟩
    refine ⟨fun id hid => ?_, fun index c _ _ hc => ?_, fun b hb => ?_⟩
    · rw [hnone] at hid
      cases hid
    · rw [← Option.some.inj (hcursor.symm.trans hc)]
      exact Nat.zero_le _
    · cases hb
      exact (Block.decode_encode_eq hdecode).2
  have hone : Meets (ReopenSafe verifier) verifier (.initial config) [deliver first] :=
    Meets.nil.snoc (hsafe _ _ (by decide +kernel))
  have htwo : Meets (ReopenSafe verifier) verifier (.initial config)
      [deliver first, deliver rivalFirst] := hone.snoc (hsafe _ _ (by decide +kernel))
  have hthree : Meets (ReopenSafe verifier) verifier (.initial config) forkCalls :=
    htwo.snoc (hsafe _ _ (by decide +kernel))
  have hall : Meets (ReopenSafe verifier) verifier (.initial config)
      (forkCalls ++ [⟨.prune, .none⟩]) := hthree.snoc ⟨trivial, trivial, fun _ h => by cases h⟩
  exact ⟨_, hboot, hall, by decide +kernel,
    reopen_after_run hboot (by decide +kernel) hall (by decide +kernel) none⟩

end Oregon
