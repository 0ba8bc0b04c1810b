import Oregon.Sanity.Branch
import Oregon.Sanity.Codec

/-! What one call can do to a chain state. The states a call can leave are named,
`Effect` lists them with what is known when they are reached, and `step_effect` says
that there are no others. -/

namespace Oregon

open Lib

def BlockIndexRecord.validated (r : BlockIndexRecord) : BlockIndexRecord :=
  { r with validation := .fullyValidated, bodyRetained := true }

def BlockIndexRecord.withBody (r : BlockIndexRecord) : BlockIndexRecord :=
  { r with bodyRetained := true }

def ReorgCandidate.node (c : ReorgCandidate) : CandidateNode := ⟨c.id, c.index⟩

/-- The record a failed reorganization writes for a node. -/
def ReorgCandidate.marked (currentCandidateId : Hash256) (c : ReorgCandidate) : BlockIndexRecord :=
  { c.index with
    validation := .invalid
    bodyRetained := if c.id = currentCandidateId then false else c.index.bodyRetained }

namespace ChainState

/-- The preferred header tip moves to `tip` when that has more work. -/
def prefer (s : ChainState) (tip : Tip) : ChainState :=
  if s.headerTip.cumulativeWork < tip.cumulativeWork then
    { s with headerTip := tip
             db := { s.db with preferredHeaderTip := some (tip.blockId, tip.height) } }
  else s

section Prefer

variable (s : ChainState) (tip : Tip)

@[simp] theorem prefer_config : (s.prefer tip).config = s.config := by
  unfold prefer; split <;> rfl

@[simp] theorem prefer_tip : (s.prefer tip).tip = s.tip := by
  unfold prefer; split <;> rfl

@[simp] theorem prefer_utxos : (s.prefer tip).utxos = s.utxos := by
  unfold prefer; split <;> rfl

@[simp] theorem prefer_sessionHealth : (s.prefer tip).sessionHealth = s.sessionHealth := by
  unfold prefer; split <;> rfl

@[simp] theorem prefer_blocks : (s.prefer tip).db.blocks = s.db.blocks := by
  unfold prefer; split <;> rfl

@[simp] theorem prefer_blockIndex : (s.prefer tip).db.blockIndex = s.db.blockIndex := by
  unfold prefer; split <;> rfl

@[simp] theorem prefer_utxo : (s.prefer tip).db.utxo = s.db.utxo := by
  unfold prefer; split <;> rfl

@[simp] theorem prefer_undo : (s.prefer tip).db.undo = s.db.undo := by
  unfold prefer; split <;> rfl

@[simp] theorem prefer_activeHeight : (s.prefer tip).db.activeHeight = s.db.activeHeight := by
  unfold prefer; split <;> rfl

@[simp] theorem prefer_pruneCursor : (s.prefer tip).db.pruneCursor = s.db.pruneCursor := by
  unfold prefer; split <;> rfl

end Prefer

end ChainState

section

variable [Crypto]

def BlockIndexRecord.tip (r : BlockIndexRecord) : Tip := ⟨r.header.blockId, r.height, r.cumulativeWork⟩

namespace ChainState

/-- A header stored. -/
def storeHeader (s : ChainState) (index : BlockIndexRecord) : ChainState :=
  prefer { s with db := { s.db with
    blockIndex := s.db.blockIndex.insert index.header.blockId index } } index.tip

/-- A body stored beside the active chain. -/
def storeSide (s : ChainState) (block : Block) (index : BlockIndexRecord) : ChainState :=
  { s with db := { s.db with
    blocks := s.db.blocks.insert block.header.blockId block
    blockIndex := s.db.blockIndex.insert block.header.blockId index.withBody } }

/-- The active chain extended by a block. -/
def extendTo (s : ChainState) (block : Block) (index : BlockIndexRecord) (undo : BlockUndo)
    (staged : UtxoState) (delta : UtxoDelta) : ChainState :=
  prefer { s with
    utxos := staged
    tip := index.tip
    db := { s.db with
      blocks := s.db.blocks.insert block.header.blockId block
      blockIndex := s.db.blockIndex.insert block.header.blockId index.validated
      utxo := overlay delta s.db.utxo
      undo := s.db.undo.insert block.header.blockId undo
      activeHeight := s.db.activeHeight.insert index.height block.header.blockId
      activeTip := some (block.header.blockId, index.height) } } index.tip

/-- The end of a path marked invalid. -/
def markPath (s : ChainState) (candidateId : Hash256) (suffix : List ReorgCandidate) : ChainState :=
  { s with db := { s.db with
    blockIndex := applyChanges (suffix.map fun c => (c.id, some (c.marked candidateId)))
      s.db.blockIndex } }

/-- The active chain above the fork replaced by a path. -/
def reorgTo (s : ChainState) (forkHeight : ℕ) (path : List ReorgCandidate) (undos : List BlockUndo)
    (staged : UtxoState) (delta : UtxoDelta) (tip : Tip) : ChainState :=
  prefer { s with
    utxos := staged
    tip := tip
    db := { s.db with
      blocks := applyChanges (path.map fun c => (c.id, some c.block)) s.db.blocks
      blockIndex := applyChanges (path.map fun c => (c.id, some c.index.validated)) s.db.blockIndex
      utxo := overlay delta s.db.utxo
      undo := applyChanges ((path.zip undos).map fun p => (p.1.id, some p.2)) s.db.undo
      activeHeight := applyChanges
        ((List.range' (forkHeight + 1) (s.tip.height - forkHeight)).map (fun h => (h, none)) ++
          path.map fun c => (c.index.height, some c.id)) s.db.activeHeight
      activeTip := some (tip.blockId, tip.height) } } tip

/-- A reorganization refused for its depth. -/
def refuseDeep (s : ChainState) : ChainState :=
  { s with sessionHealth := .reindexRequired
           db := { s.db with health := some .reindexRequired } }

end ChainState

/-- `index` is the record of a header that has just passed its checks. -/
structure Fresh (s : ChainState) (index : BlockIndexRecord) : Prop where
  unknown : s.db.getIndex index.header.blockId = none
  parent_eq : index.parent = index.header.previousBlock
  status : index.validation = .headerValidated
  body : index.bodyRetained = false
  link : ∃ p, s.db.getIndex index.parent = some p ∧ p.validation ≠ .invalid ∧
    ChildOf s.config.params p index
  checked : ∃ engine, validateCandidateHeader s index.header engine = .ok index

/-- `index` is the record of a delivered block whose body is not there yet. -/
structure Candidate (s : ChainState) (block : Block) (index : BlockIndexRecord) : Prop where
  header : index.header = block.header
  parent_eq : index.parent = block.header.previousBlock
  status : index.validation = .headerValidated
  body : index.bodyRetained = false
  source : s.db.getIndex block.header.blockId = some index ∨ Fresh s index

/-- The path of a reorganization: from the fork on the active chain through retained
bodies to the delivered block. -/
structure PathOk (s : ChainState) (block : Block) (index : BlockIndexRecord) (forkHeight : ℕ)
    (path : List ReorgCandidate) : Prop where
  fork : ∃ forkId forkRecord, s.db.getIndex forkId = some forkRecord ∧
    forkRecord.height = forkHeight ∧ s.db.activeIdAtHeight forkHeight = some forkId ∧
    Branch s.db forkId forkRecord (path.map ReorgCandidate.node)
  fork_le : forkHeight ≤ s.tip.height
  depth : s.tip.height - forkHeight ≤ REORG_WINDOW
  headers : ∀ c ∈ path, c.block.header = c.index.header ∧ c.index.header.blockId = c.id
  last : ∃ below, path = below ++ [⟨block.header.blockId, index.withBody, block⟩] ∧
    ∀ c ∈ below, s.db.getIndex c.id = some c.index ∧ c.index.bodyRetained = true ∧
      s.db.blocks[c.id]? = some c.block

/-- The plan of the reorganization that a delivered block asks for. -/
def reorgPlan (s : ChainState) (block : Block) (index : BlockIndexRecord) : Result ReorgPlan := do
  let discovery ← discoverFork s.db block.header.blockId index.withBody
  loadReorgPlan s.db s.tip.height discovery block.header.blockId block

/-- What a call can do, with the reply it gives. -/
inductive Effect (verifier : SpendVerifier) (s : ChainState) :
    Request → ChainState → Result Reply → Prop where
  | refused (request : Request) (e : ChainStateError) : Effect verifier s request s (.error e)
  | faulted (request : Request) (e : StorageError) :
      Effect verifier s request { s with sessionHealth := .storageFaulted } (.error (.storage e))
  | answered (request : Request) (reply : Reply) : Effect verifier s request s (.ok reply)
  | headerStored {index : BlockIndexRecord} {reply : Reply} (fresh : Fresh s index) :
      Effect verifier s (.acceptHeader index.header) (s.storeHeader index) (.ok reply)
  | extended {block : Block} {index : BlockIndexRecord} {undo : BlockUndo} {staged : UtxoState}
      {delta : UtxoDelta} (candidate : Candidate s block index)
      (parent : index.parent = s.tip.blockId)
      (connect : s.utxos.connectBlock block index.height s.config.params verifier =
        .ok (staged, undo))
      (deltaOk : buildUtxoDelta staged undo = .ok delta) :
      Effect verifier s (.acceptBlock block) (s.extendTo block index undo staged delta)
        (.ok (.block .extended))
  | sideStored {block : Block} {index : BlockIndexRecord} (candidate : Candidate s block index)
      (parent : index.parent ≠ s.tip.blockId)
      (light : index.cumulativeWork ≤ s.tip.cumulativeWork) :
      Effect verifier s (.acceptBlock block) (s.storeSide block index)
        (.ok (.block .storedSideChain))
  | deep (block : Block) :
      Effect verifier s (.acceptBlock block) s.refuseDeep (.error .reindexRequired)
  | marked {block : Block} {index : BlockIndexRecord} {forkHeight : ℕ}
      {path suffix : List ReorgCandidate} {e : UtxoError} {old : List (Hash256 × BlockUndo)}
      {base : UtxoState} {delta : UtxoDelta} (candidate : Candidate s block index)
      (parent : index.parent ≠ s.tip.blockId) (heavy : s.tip.cumulativeWork < index.cumulativeWork)
      (pathOk : PathOk s block index forkHeight path)
      (plan : reorgPlan s block index = .ok ⟨forkHeight, old, path⟩)
      (disconnect : disconnectActive s.utxos ∅ old = .ok (base, delta))
      (connect : connectCandidates s.config.params verifier path base delta =
        .error (.invalid suffix e)) :
      Effect verifier s (.acceptBlock block) (s.markPath block.header.blockId suffix)
        (.error (.utxo e))
  | reorganized {block : Block} {index : BlockIndexRecord} {forkHeight : ℕ}
      {path : List ReorgCandidate} {undos : List BlockUndo} {old : List (Hash256 × BlockUndo)}
      {base staged : UtxoState} {delta delta' : UtxoDelta} (candidate : Candidate s block index)
      (parent : index.parent ≠ s.tip.blockId) (heavy : s.tip.cumulativeWork < index.cumulativeWork)
      (pathOk : PathOk s block index forkHeight path)
      (plan : reorgPlan s block index = .ok ⟨forkHeight, old, path⟩)
      (disconnect : disconnectActive s.utxos ∅ old = .ok (base, delta))
      (connect : connectCandidates s.config.params verifier path base delta =
        .ok (staged, delta', undos)) :
      Effect verifier s (.acceptBlock block)
        (s.reorgTo forkHeight path undos staged delta' index.tip) (.ok (.block .reorganized))
  | pruned {batch : StorageBatch} {report : PruneReport}
      (plan : planPrune s.db s.tip.height = .ok (batch, report)) :
      Effect verifier s .prune { s with db := batch.foldl OregonDb.apply s.db }
        (.ok (.pruned report))

theorem Effect.congr {verifier : SpendVerifier} {s s₁ s₂ : ChainState} {request : Request}
    {reply : Result Reply} (h : Effect verifier s request s₁ reply) (heq : s₂ = s₁) :
    Effect verifier s request s₂ reply := heq ▸ h

section Batches

theorem foldl_applyUtxoDelta (delta : UtxoDelta) (db : OregonDb) :
    (applyUtxoDelta delta).foldl OregonDb.apply db = { db with utxo := overlay delta db.utxo } := by
  unfold applyUtxoDelta overlay
  induction delta.toList generalizing db with
  | nil => rfl
  | cons e l ih =>
    obtain ⟨o, _ | entry⟩ := e
    · rw [List.map_cons, List.foldl_cons, ih]; rfl
    · rw [List.map_cons, List.foldl_cons, ih]; rfl

theorem foldl_deleteActive (heights : List ℕ) (db : OregonDb) :
    (heights.map StorageOp.deleteActiveHeight).foldl OregonDb.apply db =
      { db with activeHeight := applyChanges (heights.map fun h => (h, none)) db.activeHeight } := by
  induction heights generalizing db with
  | nil => rfl
  | cons h heights ih => rw [List.map_cons, List.foldl_cons, ih]; rfl

theorem foldl_markInvalid (candidateId : Hash256) {suffix : List ReorgCandidate} (db : OregonDb)
    (hid : ∀ c ∈ suffix, c.index.header.blockId = c.id) :
    (suffix.map (markInvalid candidateId)).foldl OregonDb.apply db =
      { db with
        blockIndex := applyChanges (suffix.map fun c => (c.id, some (c.marked candidateId)))
          db.blockIndex } := by
  induction suffix generalizing db with
  | nil => rfl
  | cons c suffix ih =>
    rw [List.map_cons, List.foldl_cons, ih _ fun d hd => hid d (List.mem_cons_of_mem _ hd)]
    simp only [markInvalid, OregonDb.apply, List.map_cons, applyChanges_cons, applyChange_some,
      hid c (List.mem_cons_self ..)]
    rfl

theorem foldl_connectedOps {path : List ReorgCandidate} {undos : List BlockUndo} (db : OregonDb)
    (hlen : undos.length = path.length)
    (hid : ∀ c ∈ path, c.block.header = c.index.header ∧ c.index.header.blockId = c.id) :
    ((path.zip undos).flatMap fun p => connectedOps p.1 p.2).foldl OregonDb.apply db =
      { db with
        blocks := applyChanges (path.map fun c => (c.id, some c.block)) db.blocks
        blockIndex := applyChanges (path.map fun c => (c.id, some c.index.validated)) db.blockIndex
        undo := applyChanges ((path.zip undos).map fun p => (p.1.id, some p.2)) db.undo
        activeHeight := applyChanges (path.map fun c => (c.index.height, some c.id))
          db.activeHeight } := by
  induction path generalizing undos db with
  | nil => rfl
  | cons c path ih =>
    cases undos with
    | nil => simp at hlen
    | cons u undos =>
      obtain ⟨hheader, hc⟩ := hid c (List.mem_cons_self ..)
      have hb : c.block.header.blockId = c.id := hheader ▸ hc
      rw [List.zip_cons_cons, List.flatMap_cons, List.foldl_append,
        ih _ (by simpa using hlen) fun d hd => hid d (List.mem_cons_of_mem _ hd)]
      simp only [connectedOps, List.foldl_cons, List.foldl_nil, OregonDb.apply, List.map_cons,
        applyChanges_cons, applyChange_some, hb, hc]
      rfl

end Batches

theorem commit_ok {db db' : OregonDb} {fault : Option String} {batch : StorageBatch}
    (h : db.commit fault batch = .ok db') :
    fault = none ∧ encodeOperations batch = .ok () ∧ db' = batch.foldl OregonDb.apply db := by
  simp only [OregonDb.commit, bind_eq_ok, exists_unit] at h
  obtain ⟨henc, h⟩ := h
  cases fault with
  | some m => simp at h
  | none => exact ⟨rfl, henc, (pure_eq_ok.mp h).symm⟩

theorem perform_cases {α : Type} (s : ChainState) (fault : Option String)
    (action : Result (Action α)) :
    (∃ e, action = .error e ∧ s.perform fault action = (s, .error e)) ∨
    (∃ reply, action = .ok (.answer reply) ∧ s.perform fault action = (s, .ok reply)) ∨
    ∃ c, action = .ok (.commit c) ∧
      ((∃ e, s.perform fault action = (s, .error (.storage e))) ∨
        (fault = none ∧ encodeOperations c.batch = .ok () ∧ s.perform fault action =
          ({ c.next with db := c.batch.foldl OregonDb.apply s.db }, c.reply))) := by
  rcases action with e | (reply | c)
  · exact Or.inl ⟨e, rfl, rfl⟩
  · exact Or.inr (Or.inl ⟨reply, rfl, rfl⟩)
  · refine Or.inr (Or.inr ⟨c, rfl, ?_⟩)
    cases h : s.db.commit fault c.batch with
    | error e => exact Or.inl ⟨e, by simp [ChainState.perform, h]⟩
    | ok db =>
      obtain ⟨hfault, henc, rfl⟩ := commit_ok h
      exact Or.inr ⟨hfault, henc, by simp [ChainState.perform, h]⟩

theorem validateHeaderPrePow_ok {header : BlockHeader} {context : HeaderContext}
    {params : ConsensusParams} {facts : PrePowHeaderFacts}
    (h : validateHeaderPrePow header context params = .ok facts) :
    ∃ t, Target.fromLeBytes header.difficultyCommitment = .ok t ∧
      t.toNat ≤ params.powLimit.toNat ∧ facts.work = blockWork t := by
  simp only [validateHeaderPrePow, Target.validateAgainst, bind_eq_ok, ensure_eq_ok,
    exists_and_left, exists_const, pure_eq_ok] at h
  grind

theorem validateCandidateHeader_ok {s : ChainState} {header : BlockHeader}
    {engine : Option PowError} {index : BlockIndexRecord}
    (hunknown : s.db.getIndex header.blockId = none)
    (h : validateCandidateHeader s header engine = .ok index) :
    index.header = header ∧ Fresh s index := by
  have hchecked := h
  simp only [validateCandidateHeader, bind_eq_ok, ensure_eq_ok, exists_and_left, exists_const,
    orElse_eq_ok, mapError_eq_ok, pure_eq_ok] at h
  obtain ⟨p, hp, hvalid, _, -, _, hadd, facts, hfacts, _, -, _, -, _, -, _, -, rfl⟩ := h
  obtain ⟨rfl, hlt⟩ := checkedAdd_eq_some.mp hadd
  obtain ⟨t, ht, hle, hwork⟩ := validateHeaderPrePow_ok hfacts
  exact ⟨rfl, hunknown, rfl, rfl, rfl, ⟨p, hp, hvalid, rfl, hlt, t, ht, hle, by rw [hwork]⟩,
    engine, hchecked⟩

theorem getBlock_ok {db : OregonDb} {id : Hash256} {block : Block}
    (h : db.getBlock id = .ok (some block)) :
    db.blocks[id]? = some block ∧ block.Within .default := by
  unfold OregonDb.getBlock at h
  cases hstored : db.blocks[id]? with
  | none => simp [hstored, pure, Except.pure] at h
  | some stored =>
    simp only [hstored, bind_eq_ok, mapError_eq_ok, ensure_eq_ok, exists_and_left, exists_const,
      pure_eq_ok, Option.some.injEq] at h
    obtain ⟨b, hdecode, -, rfl⟩ := h
    obtain ⟨rfl, hwithin⟩ := Block.decode_encode_eq hdecode
    exact ⟨rfl, hwithin⟩

theorem loadCandidate_ok {db : OregonDb} {currentId : Hash256} {currentBlock : Block}
    {node : CandidateNode} {c : ReorgCandidate}
    (h : loadCandidate db currentId currentBlock node = .ok c) :
    c.node = node ∧ c.block.header = c.index.header ∧ c.index.header.blockId = c.id ∧
      (c.id = currentId → c.block = currentBlock) ∧
      (c.id ≠ currentId → c.index.bodyRetained = true ∧ db.blocks[c.id]? = some c.block) := by
  unfold loadCandidate at h
  split_ifs at h with hid
  · simp only [bind_eq_ok, ensure_eq_ok, exists_and_left, exists_const, pure_eq_ok] at h
    obtain ⟨_, rfl, ⟨hblock, hheader⟩, rfl⟩ := h
    exact ⟨rfl, hheader, hheader ▸ hblock, fun _ => rfl, fun hne => absurd hid hne⟩
  · simp only [bind_eq_ok, ensure_eq_ok, exists_and_left, exists_const, pure_eq_ok,
      mapError_eq_ok, orElse_eq_ok] at h
    obtain ⟨hbody, stored, hstored, block, rfl, ⟨hblock, hheader⟩, rfl⟩ := h
    exact ⟨rfl, hheader, hheader ▸ hblock, fun heq => absurd heq hid,
      fun _ => ⟨hbody, (getBlock_ok hstored).1⟩⟩

theorem connectCandidates_cons_ok {params : ConsensusParams} {verifier : SpendVerifier}
    {node : ReorgCandidate} {path : List ReorgCandidate} {staged staged' : UtxoState}
    {delta delta' : UtxoDelta} {undos : List BlockUndo}
    (h : connectCandidates params verifier (node :: path) staged delta =
      .ok (staged', delta', undos)) :
    ∃ mid undo delta₁ undos₁,
      staged.connectBlock node.block node.index.height params verifier = .ok (mid, undo) ∧
      recordConnectDelta delta mid undo = .ok delta₁ ∧
      connectCandidates params verifier path mid delta₁ = .ok (staged', delta', undos₁) ∧
      undos = undo :: undos₁ := by
  rw [connectCandidates] at h
  split at h
  · cases h
  · next mid undo hconnect =>
    simp only [bind_eq_ok, mapError_eq_ok, pure_eq_ok, Prod.exists, Prod.mk.injEq] at h
    grind

theorem connectCandidates_length {params : ConsensusParams} {verifier : SpendVerifier}
    {path : List ReorgCandidate} {staged staged' : UtxoState} {delta delta' : UtxoDelta}
    {undos : List BlockUndo}
    (h : connectCandidates params verifier path staged delta = .ok (staged', delta', undos)) :
    undos.length = path.length := by
  induction path generalizing staged delta undos with
  | nil =>
    simp only [connectCandidates, pure_eq_ok, Prod.mk.injEq] at h
    simp [← h.2.2]
  | cons node path ih =>
    obtain ⟨_, _, _, _, -, -, hrest, rfl⟩ := connectCandidates_cons_ok h
    simp [ih hrest]

/-- The suffix that a failure reports is the end of the path, from the failing node. -/
theorem connectCandidates_suffix {params : ConsensusParams} {verifier : SpendVerifier}
    {path suffix : List ReorgCandidate} {staged : UtxoState} {delta : UtxoDelta} {e : UtxoError}
    (h : connectCandidates params verifier path staged delta = .error (.invalid suffix e)) :
    ∃ connected, path = connected ++ suffix ∧ suffix ≠ [] := by
  induction path generalizing staged delta with
  | nil => simp [connectCandidates, pure, Except.pure] at h
  | cons node path ih =>
    rw [connectCandidates] at h
    split at h
    · simp only [Except.error.injEq, ReorgFailure.invalid.injEq] at h
      exact ⟨[], by simp [h.1], by simp [← h.1]⟩
    · simp only [bind_eq_error, mapError_eq_error, reduceCtorEq, and_false, exists_false, pure,
        Except.pure, or_false, false_or] at h
      grind

theorem reorgPlan_old {s : ChainState} {block : Block} {index : BlockIndexRecord} {forkHeight : ℕ}
    {old : List (Hash256 × BlockUndo)} {path : List ReorgCandidate}
    (h : reorgPlan s block index = .ok ⟨forkHeight, old, path⟩) :
    loadOldActive s.db forkHeight (s.tip.height - forkHeight) = .ok old := by
  simp only [reorgPlan, loadReorgPlan, bind_eq_ok, pure_eq_ok, ReorgPlan.mk.injEq] at h
  grind

/-- The delivered block is at the end of its path and nowhere below. -/
theorem candidate_id_ne {s : ChainState} {block : Block} {index : BlockIndexRecord}
    {forkId : Hash256} {forkRecord : BlockIndexRecord} {below : List CandidateNode}
    (hc : Candidate s block index)
    (hb : Branch s.db forkId forkRecord (below ++ [⟨block.header.blockId, index.withBody⟩]))
    (hall : ∀ node ∈ below, s.db.getIndex node.id = some node.index) :
    ∀ node ∈ below, node.id ≠ block.header.blockId := by
  intro node hnode heq
  have hlt := (List.pairwise_append.mp hb.pairwise_height).2.2 node hnode _ (List.mem_singleton.mpr rfl)
  have hrecord := hall node hnode
  rw [heq] at hrecord
  rcases hc.source with hknown | hfresh
  · rw [hrecord] at hknown
    obtain rfl := Option.some.inj hknown
    exact Nat.lt_irrefl _ hlt
  · have hunknown := hfresh.unknown
    rw [hc.header, hrecord] at hunknown
    cases hunknown

/-- The plan of a reorganization is a path from the fork to the delivered block. -/
theorem plan_pathOk {s : ChainState} {block : Block} {index : BlockIndexRecord} {d : ForkDiscovery}
    {plan : ReorgPlan} (hc : Candidate s block index)
    (hd : discoverFork s.db block.header.blockId index.withBody = .ok d)
    (hle : d.forkHeight ≤ s.tip.height) (hdepth : s.tip.height - d.forkHeight ≤ REORG_WINDOW)
    (hload : loadReorgPlan s.db s.tip.height d block.header.blockId block = .ok plan)
    (hne : plan.candidate ≠ []) :
    PathOk s block index plan.forkHeight plan.candidate ∧ reorgPlan s block index = .ok plan := by
  have hplan : reorgPlan s block index = .ok plan := by
    simp only [reorgPlan, bind_eq_ok]
    exact ⟨d, hd, hload⟩
  refine ⟨?_, hplan⟩
  simp only [loadReorgPlan, bind_eq_ok, pure_eq_ok] at hload
  obtain ⟨old, -, path, hpath, rfl⟩ := hload
  simp only [discoverFork, validateIndexIdentity, bind_eq_ok, ensure_eq_ok, exists_unit] at hd
  obtain ⟨-, hd⟩ := hd
  obtain ⟨hnodes, hload⟩ := mapM_ok_inverse (g := ReorgCandidate.node)
    (fun _ _ hac => (loadCandidate_ok hac).1) hpath
  rcases discoverForkFrom_ok hd (.nil _ _) with ⟨hempty, -, -⟩ | ⟨below, forkId, forkRecord, hcand,
    hbranch, hrecord, hheight, hactive, hall⟩
  · simp_all
  · rw [hcand] at hnodes hbranch
    obtain ⟨lower, upper, rfl, hlower, hupper⟩ := List.map_eq_append_iff.mp hnodes
    obtain ⟨top, rfl, htop⟩ := List.map_eq_singleton_iff.mp hupper
    have hid := candidate_id_ne hc hbranch hall
    have htopOk := loadCandidate_ok (hload top (by simp))
    have htopEq : top = ⟨block.header.blockId, index.withBody, block⟩ := by
      have hi : top.id = block.header.blockId := congrArg CandidateNode.id htop
      have hx : top.index = index.withBody := congrArg CandidateNode.index htop
      cases top
      simp_all
    refine ⟨⟨forkId, forkRecord, hrecord, hheight, hactive, ?_⟩, hle, hdepth, fun c hc => ?_,
      lower, by rw [htopEq], fun c hc => ?_⟩
    · rw [hnodes]
      exact hbranch
    · grind [loadCandidate_ok]
    · have hmem : c.node ∈ below := hlower ▸ List.mem_map_of_mem hc
      have hok := loadCandidate_ok (hload c (List.mem_append_left _ hc))
      exact ⟨hall c.node hmem, hok.2.2.2.2 (hid c.node hmem)⟩

/-- A reorganization that gets as far as a commit. -/
theorem reorganize_ok {verifier : SpendVerifier} {s : ChainState} {block : Block}
    {index : BlockIndexRecord} {action : Action AcceptOutcome} (hc : Candidate s block index)
    (h : reorganize s block index.withBody verifier = .ok action) :
    (action = .commit { batch := [.setHealth .reindexRequired]
                        next := { s with sessionHealth := .reindexRequired }
                        reply := .error .reindexRequired }) ∨
    ∃ forkHeight path old, PathOk s block index forkHeight path ∧
      reorgPlan s block index = .ok ⟨forkHeight, old, path⟩ ∧
      applyReorgPlan s ⟨forkHeight, old, path⟩ block.header.blockId verifier = .ok action := by
  simp only [reorganize, bind_eq_ok, ensure_eq_ok, exists_and_left, exists_unit] at h
  obtain ⟨d, hd, hle, h⟩ := h
  split_ifs at h with hdepth
  · exact Or.inl (pure_eq_ok.mp h).symm
  simp only [bind_eq_ok] at h
  obtain ⟨plan, hload, happly⟩ := h
  have hne : plan.candidate ≠ [] := by
    simp only [applyReorgPlan, bind_eq_ok, ensure_eq_ok, exists_unit] at happly
    exact happly.1
  have hwindow : s.tip.height - d.forkHeight ≤ REORG_WINDOW := by
    simpa [reorgDepthAllowed] using hdepth
  obtain ⟨hpath, hplan⟩ := plan_pathOk hc hd hle hwindow hload hne
  exact Or.inr ⟨plan.forkHeight, plan.candidate, plan.oldActive, hpath, hplan, happly⟩

section Step

variable {verifier : SpendVerifier} {s : ChainState}

theorem Candidate.tip_eq {block : Block} {index : BlockIndexRecord} (hc : Candidate s block index) :
    index.tip = ⟨block.header.blockId, index.height, index.cumulativeWork⟩ := by
  rw [BlockIndexRecord.tip, hc.header]

theorem Candidate.validated_eq {block : Block} {index : BlockIndexRecord}
    (hc : Candidate s block index) :
    index.validated = { header := block.header, parent := block.header.previousBlock
                        height := index.height, cumulativeWork := index.cumulativeWork
                        validation := .fullyValidated, bodyRetained := true } := by
  rw [BlockIndexRecord.validated, hc.header, hc.parent_eq]

/-- A commit that goes through has the effect `Effect` lists, with a reply that is not
a storage error. -/
def Action.Commits {α : Type} (verifier : SpendVerifier) (s : ChainState) (request : Request)
    (wrap : α → Reply) (action : Result (Action α)) : Prop :=
  ∀ c, action = .ok (.commit c) → (∀ e, c.reply ≠ .error (.storage e)) ∧
    Effect verifier s request { c.next with db := c.batch.foldl OregonDb.apply s.db }
      (c.reply.map wrap)

theorem extendActive_commits {block : Block} {index : BlockIndexRecord}
    (hc : Candidate s block index) (hparent : index.parent = s.tip.blockId) :
    Action.Commits verifier s (.acceptBlock block) .block
      (extendActive s block index.height index.cumulativeWork verifier) := by
  intro c h
  simp only [extendActive, bind_eq_ok, mapError_eq_ok, pure_eq_ok, Prod.exists,
    Action.commit.injEq] at h
  obtain ⟨staged, undo, hconnect, delta, hdelta, rfl⟩ := h
  refine ⟨by simp, ?_⟩
  refine (Effect.extended hc hparent hconnect hdelta).congr ?_
  simp only [ChainState.extendTo, hc.tip_eq, hc.validated_eq, List.foldl_append, List.foldl_cons,
    List.foldl_nil, foldl_applyUtxoDelta, OregonDb.apply]
  unfold preferOp ChainState.prefer
  by_cases h : s.headerTip.cumulativeWork < index.cumulativeWork <;> simp [h, OregonDb.apply]

theorem applyReorgPlan_commits {block : Block} {index : BlockIndexRecord} {forkHeight : ℕ}
    {path : List ReorgCandidate} {old : List (Hash256 × BlockUndo)} (hc : Candidate s block index)
    (hparent : index.parent ≠ s.tip.blockId) (hheavy : s.tip.cumulativeWork < index.cumulativeWork)
    (hpath : PathOk s block index forkHeight path)
    (hplan : reorgPlan s block index = .ok ⟨forkHeight, old, path⟩) :
    Action.Commits verifier s (.acceptBlock block) .block
      (applyReorgPlan s ⟨forkHeight, old, path⟩ block.header.blockId verifier) := by
  intro c h
  simp only [applyReorgPlan, bind_eq_ok, ensure_eq_ok, exists_unit, Prod.exists] at h
  obtain ⟨-, base, delta, hdisconnect, h⟩ := h
  split at h
  · simp at h
  · next suffix e hconnect =>
    obtain ⟨connected, hsplit, -⟩ := connectCandidates_suffix hconnect
    simp only [pure_eq_ok, Action.commit.injEq] at h
    subst h
    refine ⟨by simp, ?_⟩
    refine (Effect.marked hc hparent hheavy hpath hplan hdisconnect hconnect).congr ?_
    rw [foldl_markInvalid _ _ fun d hd => (hpath.headers d (by simp [hsplit, hd])).2]
    rfl
  · next staged delta' undos hconnect =>
    obtain ⟨below, hlast, -⟩ := hpath.last
    have hgetLast : path.getLast? = some ⟨block.header.blockId, index.withBody, block⟩ := by
      simp [hlast]
    simp only [bind_eq_ok, orElse_eq_ok, hgetLast, Option.some.injEq, exists_eq_left', pure_eq_ok,
      Action.commit.injEq] at h
    obtain ⟨first, hfirst, rfl⟩ := h
    obtain ⟨rfl, -⟩ := checkedAdd_eq_some.mp hfirst
    refine ⟨by simp, ?_⟩
    refine (Effect.reorganized hc hparent hheavy hpath hplan hdisconnect hconnect).congr ?_
    simp only [ChainState.reorgTo, hc.tip_eq, List.foldl_append, foldl_deleteActive,
      foldl_connectedOps _ (connectCandidates_length hconnect) hpath.headers,
      foldl_applyUtxoDelta, List.foldl_cons, List.foldl_nil, OregonDb.apply, Nat.add_sub_add_right,
      BlockIndexRecord.withBody, applyChanges_append]
    unfold preferOp ChainState.prefer
    by_cases h : s.headerTip.cumulativeWork < index.cumulativeWork <;> simp [h, OregonDb.apply]

theorem admitBody_commits {block : Block} {index : BlockIndexRecord}
    (hc : Candidate s block index) :
    Action.Commits verifier s (.acceptBlock block) .block (admitBody s block index verifier) := by
  unfold admitBody
  by_cases hparent : index.parent = s.tip.blockId
  · rw [if_pos hparent]
    exact extendActive_commits hc hparent
  rw [if_neg hparent]
  by_cases hheavy : s.tip.cumulativeWork < index.cumulativeWork
  · intro c h
    rw [if_pos hheavy] at h
    rcases reorganize_ok hc h with heq | ⟨forkHeight, path, old, hpath, hplan, happly⟩
    · simp only [Action.commit.injEq] at heq
      subst heq
      exact ⟨by simp, Effect.deep block⟩
    · exact applyReorgPlan_commits hc hparent hheavy hpath hplan c happly
  · intro c h
    rw [if_neg hheavy, pure_eq_ok, Action.commit.injEq] at h
    subst h
    refine ⟨by simp, ?_⟩
    refine (Effect.sideStored hc hparent (Nat.le_of_not_lt hheavy)).congr ?_
    simp [ChainState.storeSide, OregonDb.apply, BlockIndexRecord.withBody, hc.header]

theorem acceptBlockHealthy_commits {block : Block} {engine : Option PowError}
    (hok : IndexOk s.config s.db.blockIndex) :
    Action.Commits verifier s (.acceptBlock block) .block
      (acceptBlockHealthy s block verifier engine) := by
  intro c h
  simp only [acceptBlockHealthy] at h
  split at h
  · next existing hknown =>
    split at h
    · cases h
    · simp [pure_eq_ok] at h
    · next hstatus =>
      split_ifs at h with hbody
      · simp [pure_eq_ok] at h
      simp only [bind_eq_ok, ensure_eq_ok, exists_unit] at h
      obtain ⟨hheader, h⟩ := h
      obtain ⟨-, hparent⟩ := hok.ident _ _ hknown
      exact admitBody_commits ⟨hheader, hheader ▸ hparent, hstatus, by simpa using hbody,
        Or.inl hknown⟩ c h
  · next hunknown =>
    simp only [bind_eq_ok] at h
    obtain ⟨index, hindex, h⟩ := h
    obtain ⟨hheader, hfresh⟩ := validateCandidateHeader_ok hunknown hindex
    exact admitBody_commits ⟨hheader, hheader ▸ hfresh.parent_eq, hfresh.status, hfresh.body,
      Or.inr hfresh⟩ c h

theorem acceptHeaderHealthy_commits {header : BlockHeader} {engine : Option PowError} :
    Action.Commits verifier s (.acceptHeader header) .header
      (acceptHeaderHealthy s header engine) := by
  intro c h
  simp only [acceptHeaderHealthy] at h
  split at h
  · simp only [bind_eq_ok, pure_eq_ok, reduceCtorEq, and_false, exists_false] at h
  · next hunknown =>
    simp only [bind_eq_ok, pure_eq_ok, Action.commit.injEq] at h
    obtain ⟨index, hindex, rfl⟩ := h
    obtain ⟨rfl, hfresh⟩ := validateCandidateHeader_ok hunknown hindex
    refine ⟨by simp, ?_⟩
    refine (Effect.headerStored hfresh).congr ?_
    unfold ChainState.storeHeader preferOp ChainState.prefer BlockIndexRecord.tip
    by_cases h : s.headerTip.cumulativeWork < index.cumulativeWork <;> simp [h, OregonDb.apply]

/-- An action carried out by a call that closes the session on a storage error. -/
theorem noteFault_effect {α : Type} {request : Request} {wrap : α → Reply} {fault : Option String}
    {action : Result (Action α)} (h : Action.Commits verifier s request wrap action) :
    Effect verifier s request (noteFault (s.perform fault action)).1
      ((noteFault (s.perform fault action)).2.map wrap) := by
  rcases perform_cases s fault action with ⟨e, -, hp⟩ | ⟨reply, -, hp⟩ | ⟨c, hc, ⟨e, hp⟩ | ⟨-, -, hp⟩⟩
  · rw [hp]
    cases e <;> first | exact Effect.faulted _ _ | exact Effect.refused _ _
  · rw [hp]
    exact Effect.answered _ _
  · rw [hp]
    exact Effect.faulted _ _
  · obtain ⟨hreply, heffect⟩ := h c hc
    have hnote : noteFault (s.perform fault action) = s.perform fault action := by
      rw [hp]
      unfold noteFault
      simp
    rw [hnote, hp]
    exact heffect

/-- Every call has one of the listed effects. -/
theorem step_effect (hok : IndexOk s.config s.db.blockIndex) (call : Call) :
    Effect verifier s call.request (step verifier s call).1 (step verifier s call).2 := by
  obtain ⟨request, faults⟩ := call
  unfold step
  cases request with
  | acceptHeader header =>
    simp only [ChainState.acceptHeader]
    split
    · exact Effect.refused _ _
    · exact noteFault_effect acceptHeaderHealthy_commits
  | acceptBlock block =>
    simp only [ChainState.acceptBlock]
    split
    · exact Effect.refused _ _
    · exact noteFault_effect (acceptBlockHealthy_commits hok)
  | prune =>
    simp only [ChainState.prune]
    split
    · exact Effect.refused _ _
    · rcases perform_cases s faults.write (bind (planPrune s.db s.tip.height) fun planned =>
          pure (.commit { batch := planned.1, next := s, reply := .ok planned.2 })) with
        ⟨e, -, hp⟩ | ⟨reply, hc, -⟩ | ⟨c, hc, ⟨e, hp⟩ | ⟨-, -, hp⟩⟩
      · rw [hp]
        exact Effect.refused _ _
      · simp only [bind_eq_ok, pure_eq_ok, reduceCtorEq, and_false, exists_false] at hc
      · rw [hp]
        exact Effect.refused _ _
      · rw [hp]
        simp only [bind_eq_ok, Prod.exists, pure_eq_ok, Action.commit.injEq] at hc
        obtain ⟨batch, report, hplan, rfl⟩ := hc
        exact Effect.pruned hplan

end Step

end

end Oregon
