import Oregon.Proofs.Frame
import Oregon.Proofs.Ledger
import Oregon.Sanity.Routing
import Oregon.Sanity.Sample

/-! Bodies and headers. A body is compared with the transaction root of its header only
when it is connected. A body that does not match is ignored on the tip and for a block
that is settled, but it is kept beside the active chain, and a heavier branch that ends
in it is marked invalid. -/

namespace Oregon

open Lib

section

variable [Crypto] {verifier : SpendVerifier} {s : ChainState} {block : Block}
  {index : BlockIndexRecord} {faults : Faults}

/-- The transactions do not hash to the root in the header. -/
def Block.Mismatched (block : Block) : Prop :=
  transactionRoot block.transactions ≠ .ok block.header.transactionRoot

instance : Decidable block.Mismatched := inferInstanceAs (Decidable (_ ≠ _))

theorem Block.Mismatched.connectBlock_error (h : block.Mismatched) (t : UtxoState) (height : ℕ)
    (params : ConsensusParams) : ∃ e, t.connectBlock block height params verifier = .error e := by
  cases hconnect : t.connectBlock block height params verifier with
  | error e => exact ⟨e, rfl⟩
  | ok r =>
    obtain ⟨-, coinbase, normals, mid, fees, hsteps⟩ := connectBlock_ok hconnect
    exact absurd hsteps.skeleton.root h

/-- A path whose last body does not match its header fails to connect, and what it
reports goes up to that block. -/
theorem connectCandidates_mismatched {params : ConsensusParams} {below : List ReorgCandidate}
    {last : ReorgCandidate} (h : last.block.Mismatched) (staged : UtxoState) (delta : UtxoDelta) :
    ∃ suffix e, last ∈ suffix ∧ connectCandidates params verifier (below ++ [last]) staged delta =
      .error (.invalid suffix e) := by
  induction below generalizing staged delta with
  | nil =>
    obtain ⟨e, he⟩ : ∃ e, staged.connectBlock last.block last.index.height params verifier = .error e :=
      h.connectBlock_error staged last.index.height params
    exact ⟨[last], e, List.mem_singleton.mpr rfl, by simp [connectCandidates, he]⟩
  | cons node below ih =>
    rw [List.cons_append, connectCandidates]
    cases hconnect : staged.connectBlock node.block node.index.height params verifier with
    | error e => exact ⟨_, e, by simp, rfl⟩
    | ok r =>
      obtain ⟨mid, undo⟩ := r
      obtain ⟨rfl, -⟩ := connectBlock_ok hconnect
      obtain ⟨delta', hdelta⟩ := recordConnect_undoBetween
        "created outpoint missing from staged reorg UTXO state" delta staged mid
      obtain ⟨suffix, e, hmem, hrest⟩ := ih mid delta'
      grind [recordConnectDelta, Except.mapError, ok_bind, error_bind]

/-- The branch that `block` completes cannot be loaded: the way down to the active chain
meets a marked block, or a body or an undo record it needs is not there. -/
def Unloadable (s : ChainState) (block : Block) (index : BlockIndexRecord) : Prop :=
  (∃ e, discoverFork s.db block.header.blockId index.withBody = .error e) ∨
  ∃ d e, discoverFork s.db block.header.blockId index.withBody = .ok d ∧
    s.tip.height - d.forkHeight ≤ REORG_WINDOW ∧
    loadReorgPlan s.db s.tip.height d block.header.blockId block = .error e ∧ e.NotStorage

/-- A delivered body is without effect when it does not match its header: it is not
admitted, or it is to extend the tip, or its heavier branch cannot be loaded. -/
def Ignored (s : ChainState) (block : Block) (engine : Option PowError) : Prop :=
  ∀ index, admittedRecord s block engine = some index → index.parent = s.tip.blockId ∨
    (s.tip.cumulativeWork < index.cumulativeWork ∧ Unloadable s block index)

/-- The body kept for a block. -/
def ChainState.retainedBody (s : ChainState) (id : Hash256) : Option Block :=
  match s.db.getIndex id with
  | some r => if r.bodyRetained then s.db.blocks[id]? else none
  | none => none

/-- Two states that nobody can tell apart by the tips, the UTXO set, the health, the
statuses of blocks or the bodies kept for them. -/
structure SameView (s s' : ChainState) : Prop where
  tip : s'.tip = s.tip
  headerTip : s'.headerTip = s.headerTip
  utxos : s'.utxos = s.utxos
  health : s'.sessionHealth = s.sessionHealth
  status : ∀ id, (s'.db.getIndex id).map BlockIndexRecord.validation =
    (s.db.getIndex id).map BlockIndexRecord.validation
  body : ∀ id, s'.retainedBody id = s.retainedBody id

omit [Crypto] in
theorem SameView.refl (s : ChainState) : SameView s s :=
  ⟨rfl, rfl, rfl, rfl, fun _ => rfl, fun _ => rfl⟩

theorem Candidate.retainedBody_none (hc : Candidate s block index) :
    s.retainedBody block.header.blockId = none := by
  unfold ChainState.retainedBody
  rcases hc.source_eq with hknown | ⟨hfresh, hid⟩
  · simp [hknown, hc.body]
  · rw [← hid, hfresh.unknown]

theorem Candidate.status_ne (hc : Candidate s block index) :
    (s.db.getIndex block.header.blockId).map BlockIndexRecord.validation ≠ some .invalid := by
  intro h
  obtain ⟨r, hr, hinvalid⟩ := Option.map_eq_some_iff.mp h
  exact hc.valid hr hinvalid

theorem noteFault_error {α : Type} {fault : Option String} {e : ChainStateError}
    (he : e.NotStorage) : (noteFault (s.perform fault (.error e : Result (Action α)))).1 = s :=
  congrArg Prod.fst (noteFault_notStorage he)

theorem Unloadable.reorganize_error (h : Unloadable s block index) :
    ∃ e : ChainStateError, e.NotStorage ∧ reorganize s block index.withBody verifier = .error e := by
  rcases h with ⟨e, he⟩ | ⟨d, e, hd, hdepth, hload, hne⟩
  · exact ⟨e, (discoverFork_fails _ _ e he).notStorage, by rw [reorganize, he, error_bind]⟩
  · rw [reorganize, hd, ok_bind]
    by_cases hle : d.forkHeight ≤ s.tip.height
    · grind [ensure, ok_bind, reorgDepthAllowed, error_bind]
    · exact ⟨.corruptState "candidate fork height exceeds active tip", by rintro _ ⟨⟩,
        by simp [ensure, hle, error_bind]⟩

theorem Ignored.unchanged (hmis : block.Mismatched) (h : Ignored s block faults.engine) :
    (s.acceptBlock block verifier faults).1 = s := by
  cases hadmitted : admittedRecord s block faults.engine with
  | none => exact acceptBlock_not_admitted hadmitted
  | some index =>
    by_cases hhealthy : s.sessionHealth = .healthy
    · rw [acceptBlock_admitted hhealthy hadmitted, admitBody]
      by_cases hparent : index.parent = s.tip.blockId
      · obtain ⟨e, he⟩ : ∃ e, s.utxos.connectBlock block index.height s.config.params verifier =
            .error e := hmis.connectBlock_error _ _ _
        have hextend : extendActive s block index.height index.cumulativeWork verifier =
            .error (.utxo e) := by
          rw [extendActive, he]
          rfl
        rw [if_pos hparent, hextend]
        exact noteFault_error (by rintro _ ⟨⟩)
      · obtain ⟨hheavy, hunload⟩ := (h index hadmitted).resolve_left hparent
        obtain ⟨e, hne, he⟩ : ∃ e : ChainStateError, e.NotStorage ∧
            reorganize s block index.withBody verifier = .error e := hunload.reorganize_error
        change reorganize s block { index with bodyRetained := true } verifier = _ at he
        simp only [if_neg hparent, if_pos hheavy, he]
        exact noteFault_error hne
    · obtain ⟨e, he⟩ : ∃ e, step verifier s ⟨.acceptBlock block, faults⟩ = (s, .error e) :=
        step_unhealthy hhealthy _
      exact congrArg Prod.fst he

/-- A commit that shows when it is carried out also shows when it closes the session. -/
theorem commit_shows (hhealthy : s.sessionHealth = .healthy) {fault : Option String}
    (c : Commit AcceptOutcome) (hreply : ∀ e, c.reply ≠ .error (.storage e))
    (hshows : ¬ SameView s { c.next with db := c.batch.foldl OregonDb.apply s.db }) :
    ¬ SameView s (noteFault (s.perform fault (.ok (.commit c)))).1 := by
  rcases perform_cases s fault (.ok (.commit c)) with ⟨e, he, -⟩ | ⟨_, he, -⟩ | ⟨c', hc, hrun⟩
  · cases he
  · cases he
  · obtain rfl : c = c' := by
      injection hc with hc
      injection hc
    rcases hrun with ⟨e, hp⟩ | ⟨-, -, hp⟩
    · rw [hp]
      intro hview
      cases hview.health.trans hhealthy
    · have hnote : noteFault ({ c.next with db := c.batch.foldl OregonDb.apply s.db }, c.reply) =
          ({ c.next with db := c.batch.foldl OregonDb.apply s.db }, c.reply) := by
        unfold noteFault
        simp
      rw [hp, hnote]
      exact hshows

theorem side_shows (hc : Candidate s block index) :
    ¬ SameView s { s with
      db := List.foldl OregonDb.apply s.db [.putBlock block, .putIndex index.withBody] } := by
  intro hview
  have hbody := hview.body block.header.blockId
  rw [hc.retainedBody_none] at hbody
  simp [ChainState.retainedBody, OregonDb.apply, OregonDb.getIndex, BlockIndexRecord.withBody,
    hc.header] at hbody

theorem marks_show {forkHeight : ℕ} {path suffix : List ReorgCandidate}
    (hc : Candidate s block index) (hp : PathOk s block index forkHeight path)
    (hsub : ∀ c ∈ suffix, c ∈ path)
    (htop : ⟨block.header.blockId, index.withBody, block⟩ ∈ suffix) :
    ¬ SameView s { s with
      db := (suffix.map (markInvalid block.header.blockId)).foldl OregonDb.apply s.db } := by
  intro hview
  have hstatus := hview.status block.header.blockId
  rw [foldl_markInvalid _ _ fun c hmem => (hp.headers c (hsub c hmem)).2] at hstatus
  refine hc.status_ne (hstatus.symm.trans (Option.map_eq_some_iff.mpr ?_))
  rcases lookup_applyChanges_cases (suffix.map fun c =>
    (c.id, some (c.marked block.header.blockId))) s.db.blockIndex block.header.blockId with
    ⟨hnot, -⟩ | ⟨_, hmem, heq⟩
  · grind
  · obtain ⟨c, -, hpair⟩ := List.mem_map.mp hmem
    obtain ⟨-, rfl⟩ := Prod.mk.inj hpair
    exact ⟨_, heq, rfl⟩

theorem storage_shows (hhealthy : s.sessionHealth = .healthy) {fault : Option String}
    (e : StorageError) : ¬ SameView s
      (noteFault (s.perform fault (.error (.storage e) : Result (Action AcceptOutcome)))).1 := by
  intro hview
  cases hview.health.trans hhealthy

/-- A reorganization onto a path that ends in a mismatched body marks the end of it. -/
theorem applyReorgPlan_mismatched {delivered chain : List Block} {plan : ReorgPlan}
    (hs : Consistent s) (hreplays : Replays verifier delivered s chain)
    (hfree : CollisionFree (chainTransactions delivered)) (hmis : block.Mismatched)
    (hp : PathOk s block index plan.forkHeight plan.candidate)
    (hold : loadOldActive s.db plan.forkHeight (s.tip.height - plan.forkHeight) =
      .ok plan.oldActive) :
    ∃ (suffix : List ReorgCandidate) (e : UtxoError), (∀ c ∈ suffix, c ∈ plan.candidate) ∧
      ⟨block.header.blockId, index.withBody, block⟩ ∈ suffix ∧
      applyReorgPlan s plan block.header.blockId verifier = .ok (.commit
        { batch := suffix.map (markInvalid block.header.blockId)
          next := s
          reply := .error (.utxo e) }) := by
  obtain ⟨base, delta, hdisconnect, -⟩ := hreplays.disconnect hs hfree hp.fork_le hold
  obtain ⟨below, hpath, -⟩ := hp.last
  obtain ⟨suffix, e, hlast, hconnect⟩ : ∃ (suffix : List ReorgCandidate) (e : UtxoError),
      ⟨block.header.blockId, index.withBody, block⟩ ∈ suffix ∧
      connectCandidates s.config.params verifier
        (below ++ [⟨block.header.blockId, index.withBody, block⟩]) base delta =
        .error (.invalid suffix e) := connectCandidates_mismatched hmis base delta
  rw [← hpath] at hconnect
  obtain ⟨connected, hsplit, -⟩ := connectCandidates_suffix hconnect
  refine ⟨suffix, e, fun c hc => hsplit ▸ List.mem_append_right _ hc, hlast, ?_⟩
  have hne : plan.candidate ≠ [] := by simp [hpath]
  simp [applyReorgPlan, ensure, hne, hdisconnect, ok_bind, hconnect, pure, Except.pure]

theorem reorganize_shows {delivered chain : List Block} {fault : Option String}
    (hs : Consistent s) (hreplays : Replays verifier delivered s chain)
    (hfree : CollisionFree (chainTransactions delivered)) (hhealthy : s.sessionHealth = .healthy)
    (hc : Candidate s block index) (hmis : block.Mismatched) (hload : ¬ Unloadable s block index) :
    ¬ SameView s
      (noteFault (s.perform fault (reorganize s block index.withBody verifier))).1 := by
  cases hd : discoverFork s.db block.header.blockId index.withBody with
  | error e => exact absurd (Or.inl ⟨e, hd⟩) hload
  | ok d =>
    obtain ⟨hle, hcand⟩ := hc.discovered hs.active hd
    rw [reorganize, hd, ok_bind, ensure_ok hle, ok_bind]
    by_cases hdepth : s.tip.height - d.forkHeight ≤ REORG_WINDOW
    · rw [if_neg (by simp [reorgDepthAllowed, hdepth])]
      cases hplan : loadReorgPlan s.db s.tip.height d block.header.blockId block with
      | error e =>
        by_cases hne : e.NotStorage
        · exact absurd (Or.inr ⟨d, e, hd, hdepth, hplan, hne⟩) hload
        · obtain ⟨error, rfl⟩ : ∃ error, e = .storage error := by simpa [ChainStateError.NotStorage] using hne
          exact storage_shows hhealthy error
      | ok plan =>
        have hlen := hplan
        simp only [loadReorgPlan, bind_eq_ok, pure_eq_ok] at hlen
        obtain ⟨old, hold, path, hpath, rfl⟩ := hlen
        have hne : path ≠ [] := by
          rintro rfl
          exact hcand (mapM_ok_inverse (g := ReorgCandidate.node)
            (fun _ _ hac => (loadCandidate_ok hac).1) hpath).1.symm
        obtain ⟨hp, -⟩ := plan_pathOk hc hd hle hdepth hplan hne
        obtain ⟨suffix, e, hsub, htop, happly⟩ :=
          applyReorgPlan_mismatched hs hreplays hfree hmis hp hold
        rw [ok_bind, happly]
        exact commit_shows hhealthy _ (by rintro _ ⟨⟩) (marks_show hc hp hsub htop)
    · rw [if_pos (by simpa [reorgDepthAllowed] using hdepth)]
      refine commit_shows hhealthy _ (by rintro _ ⟨⟩) fun hview => ?_
      cases hview.health.trans hhealthy

theorem Ignored.of_sameView {delivered chain : List Block} (hs : Consistent s)
    (hreplays : Replays verifier delivered s chain)
    (hfree : CollisionFree (chainTransactions delivered)) (hhealthy : s.sessionHealth = .healthy)
    (hmis : block.Mismatched) (hview : SameView s (s.acceptBlock block verifier faults).1) :
    Ignored s block faults.engine := by
  intro index hadmitted
  have hc := admittedRecord_candidate hs.index hadmitted
  rw [acceptBlock_admitted hhealthy hadmitted, admitBody] at hview
  refine Or.imp_right (fun hside => ?_) (Decidable.em _)
  rw [if_neg hside] at hview
  by_cases hheavy : s.tip.cumulativeWork < index.cumulativeWork
  · refine ⟨hheavy, by_contra fun hload => ?_⟩
    simp only [if_pos hheavy] at hview
    exact reorganize_shows hs hreplays hfree hhealthy hc hmis hload hview
  · simp only [if_neg hheavy] at hview
    exact absurd hview (commit_shows hhealthy _ (by rintro _ ⟨⟩) (side_shows hc))

theorem run_append (verifier : SpendVerifier) (s : ChainState) (calls later : List Call) :
    run verifier s (calls ++ later) = run verifier (run verifier s calls) later :=
  List.foldl_append

/-- A mismatched body is without influence on every later state exactly when it is not
admitted, or it is to extend the tip, or its heavier branch cannot be loaded. -/
theorem mismatched_body_without_influence {config : ChainConfig} {s₀ : ChainState}
    {calls : List Call} (hboot : Bootstrapped config s₀)
    (hfree : CollisionFree (chainTransactions (deliveredBlocks calls)))
    (hhealthy : (run verifier s₀ calls).sessionHealth = .healthy) (hmis : block.Mismatched) :
    (∀ later, SameView (run verifier s₀ (calls ++ later))
      (run verifier s₀ (calls ++ ⟨.acceptBlock block, faults⟩ :: later))) ↔
    Ignored (run verifier s₀ calls) block faults.engine := by
  obtain ⟨hs, chain, hreplays⟩ : Consistent (run verifier s₀ calls) ∧ ∃ chain,
    Replays verifier (deliveredBlocks calls) (run verifier s₀ calls) chain := run_replays hboot hfree
  constructor
  · intro h
    have hview := h []
    rw [List.append_nil, run_append] at hview
    exact .of_sameView hs hreplays hfree hhealthy hmis hview
  · intro h later
    have hstep : run verifier s₀ (calls ++ ⟨.acceptBlock block, faults⟩ :: later) =
        run verifier s₀ (calls ++ later) := by
      rw [run_append, run_append]
      exact congrArg (run verifier · later) (h.unchanged hmis)
    rw [hstep]
    exact .refl _

end

section Sample

open Sample

/-- The header of a block with the transactions of another. -/
def swapped (header body : Block) : Block := ⟨header.header, body.transactions⟩

/-- A body that does not match its header is kept beside the active chain; the branch of
that header is then refused, while without that body it is adopted. -/
theorem mismatched_body_influences : ∃ s₀, Bootstrapped config s₀ ∧
    (swapped rivalFirst first).Mismatched ∧
    (run verifier s₀ [deliver first]).sessionHealth = .healthy ∧
    (run verifier s₀ ([deliver first] ++ [deliver rivalFirst, deliver rivalSecond])).tip.blockId =
      rivalSecond.header.blockId ∧
    (run verifier s₀ ([deliver first] ++ deliver (swapped rivalFirst first) ::
      [deliver rivalFirst, deliver rivalSecond])).tip.blockId = first.header.blockId ∧
    ((run verifier s₀ ([deliver first] ++ deliver (swapped rivalFirst first) ::
      [deliver rivalFirst, deliver rivalSecond])).db.getIndex rivalFirst.header.blockId).map
        BlockIndexRecord.validation = some .invalid :=
  ⟨.initial config, bootstrapped_initial (by decide +kernel), by decide +kernel, by decide +kernel,
    by decide +kernel, by decide +kernel, by decide +kernel⟩

theorem mismatched_body_without_influence_sample : ∃ s₀, Bootstrapped config s₀ ∧
    ∀ later, SameView (run verifier s₀ ([deliver first] ++ later))
      (run verifier s₀ ([deliver first] ++ deliver (swapped second first) :: later)) := by
  have hboot : Bootstrapped config (.initial config) := bootstrapped_initial (by decide +kernel)
  refine ⟨_, hboot, (mismatched_body_without_influence hboot (by decide +kernel) (by decide +kernel)
    (show (swapped second first).Mismatched by decide +kernel)).mpr fun index h => Or.inl ?_⟩
  have hindex : (admittedRecord (run verifier (.initial config) [deliver first])
    (swapped second first) Faults.none.engine).map BlockIndexRecord.parent =
      some (run verifier (.initial config) [deliver first]).tip.blockId := by decide +kernel
  rw [h] at hindex
  exact Option.some.inj hindex

end Sample

end Oregon
