import Oregon.Spec.Chain

/-! How blocks change the active chain. A function that ends in a commit returns
what it commits: the batch to write, the memory state published once the write has
succeeded, and the reply. `ChainState.perform` carries it out. -/

namespace Oregon

open Lib Std

/-- What the world may do to a call: the write fails, or the RandomX engine cannot
be allocated. -/
structure Faults where
  write : Option String
  engine : Option PowError
  deriving DecidableEq, Repr

/-- No fault. -/
def Faults.none : Faults := ⟨Option.none, Option.none⟩

structure Commit (α : Type) where
  batch : StorageBatch
  next : ChainState
  reply : Result α

/-- A call either answers from what it has read or commits. -/
inductive Action (α : Type) where
  | answer (reply : α)
  | commit (c : Commit α)

/-- The write comes before the publication: when it fails, memory is as it was. -/
def ChainState.perform [Crypto] {α : Type} (s : ChainState) (fault : Option String) :
    Result (Action α) → ChainState × Result α
  | .error e => (s, .error e)
  | .ok (.answer reply) => (s, .ok reply)
  | .ok (.commit c) =>
    match s.db.commit fault c.batch with
    | .error e => (s, .error (.storage e))
    | .ok db => ({ c.next with db }, c.reply)

abbrev UtxoDelta := ExtTreeMap OutPoint (Option UtxoEntry)

/-- Spent outpoints go, created ones come with the entry the staged set has for
them; a later record overwrites an earlier one. -/
def recordConnect (missing : String) (delta : UtxoDelta) (staged : UtxoState) (undo : BlockUndo) :
    Result UtxoDelta :=
  undo.created.foldlM (fun (delta : UtxoDelta) o => do
    let entry ← orElse (staged.get o) (.corruptState missing)
    pure (delta.insert o (some entry)))
    (undo.spent.foldl (fun delta e => delta.insert e.1 none) delta)

def buildUtxoDelta (staged : UtxoState) (undo : BlockUndo) : Result UtxoDelta :=
  recordConnect "created outpoint missing from staged UTXO state" ∅ staged undo

def recordConnectDelta (delta : UtxoDelta) (staged : UtxoState) (undo : BlockUndo) :
    Result UtxoDelta :=
  recordConnect "created outpoint missing from staged reorg UTXO state" delta staged undo

def recordDisconnectDelta (delta : UtxoDelta) (undo : BlockUndo) : UtxoDelta :=
  undo.spent.foldl (fun delta e => delta.insert e.1 (some e.2))
    (undo.created.foldl (fun delta o => delta.insert o none) delta)

def applyUtxoDelta (delta : UtxoDelta) : StorageBatch :=
  delta.toList.map fun (outpoint, entry) =>
    match entry with
    | some entry => .putUtxo outpoint entry
    | none => .deleteUtxo outpoint

/-- The operation that moves the preferred header tip, when it moves. -/
def preferOp (becomesPreferred : Bool) (tip : Tip) : StorageBatch :=
  if becomesPreferred then [.setPreferredHeaderTip tip.blockId tip.height] else []

section

variable [Crypto]

def extendActive (s : ChainState) (block : Block) (height : ℕ) (cumulativeWork : ℕ)
    (verifier : SpendVerifier) : Result (Action AcceptOutcome) := do
  let blockId := block.header.blockId
  let parentId := block.header.previousBlock
  let (staged, undo) ←
    (s.utxos.connectBlock block height s.config.params verifier).mapError ChainStateError.utxo
  let delta ← buildUtxoDelta staged undo
  let index : BlockIndexRecord :=
    { header := block.header, parent := parentId, height, cumulativeWork,
      validation := .fullyValidated, bodyRetained := true }
  let becomesPreferred := decide (s.headerTip.cumulativeWork < cumulativeWork)
  let tip : Tip := { blockId, height, cumulativeWork }
  pure (.commit
    { batch := [.putBlock block, .putIndex index, .putUndo blockId undo] ++ applyUtxoDelta delta ++
        [.setActiveHeight height blockId, .setTip blockId height] ++ preferOp becomesPreferred tip
      next := { s with
        utxos := staged
        tip := tip
        headerTip := if becomesPreferred then tip else s.headerTip }
      reply := .ok .extended })

/-- Why connecting a candidate path stopped: at the first node of `suffix` with a
block error, or with an error of another kind. -/
inductive ReorgFailure where
  | invalid (suffix : List ReorgCandidate) (error : UtxoError)
  | other (error : ChainStateError)

def disconnectActive (staged : UtxoState) (delta : UtxoDelta) :
    List (Hash256 × BlockUndo) → Result (UtxoState × UtxoDelta)
  | [] => pure (staged, delta)
  | (_, undo) :: rest => do
    let delta := recordDisconnectDelta delta undo
    let staged ← (staged.disconnectBlock undo).mapError ChainStateError.utxo
    disconnectActive staged delta rest

def connectCandidates (params : ConsensusParams) (verifier : SpendVerifier) :
    List ReorgCandidate → UtxoState → UtxoDelta →
      Except ReorgFailure (UtxoState × UtxoDelta × List BlockUndo)
  | [], staged, delta => pure (staged, delta, [])
  | node :: rest, staged, delta =>
    match staged.connectBlock node.block node.index.height params verifier with
    | .error e => .error (.invalid (node :: rest) e)
    | .ok (staged, undo) => do
      let delta ← (recordConnectDelta delta staged undo).mapError ReorgFailure.other
      let (staged, delta, undos) ← connectCandidates params verifier rest staged delta
      pure (staged, delta, undo :: undos)

/-- The failing block and the rest of the path are marked; the body of the block
just delivered is not kept. -/
def markInvalid (currentCandidateId : Hash256) (node : ReorgCandidate) : StorageOp :=
  .putIndex { node.index with
    validation := .invalid
    bodyRetained := if node.id = currentCandidateId then false else node.index.bodyRetained }

def connectedOps (node : ReorgCandidate) (undo : BlockUndo) : StorageBatch :=
  [.putBlock node.block,
   .putIndex { node.index with validation := .fullyValidated, bodyRetained := true },
   .putUndo node.id undo,
   .setActiveHeight node.index.height node.id]

def applyReorgPlan (s : ChainState) (plan : ReorgPlan) (currentCandidateId : Hash256)
    (verifier : SpendVerifier) : Result (Action AcceptOutcome) := do
  ensure (plan.candidate ≠ []) (.corruptState "reorg candidate path is empty")
  let (staged, delta) ← disconnectActive s.utxos ∅ plan.oldActive
  match connectCandidates s.config.params verifier plan.candidate staged delta with
  | .error (.other e) => throw e
  | .error (.invalid suffix e) =>
    pure (.commit
      { batch := suffix.map (markInvalid currentCandidateId)
        next := s
        reply := .error (.utxo e) })
  | .ok (staged, delta, newUndos) => do
    let newTip ← orElse plan.candidate.getLast? (.corruptState "reorg candidate path is empty")
    let tip : Tip := ⟨newTip.id, newTip.index.height, newTip.index.cumulativeWork⟩
    let becomesPreferred := decide (s.headerTip.cumulativeWork < tip.cumulativeWork)
    let firstReplaced ← orElse (checkedAdd plan.forkHeight 1)
      (.corruptState "reorg fork height overflow")
    pure (.commit
      { batch :=
          (List.range' firstReplaced (s.tip.height + 1 - firstReplaced)).map .deleteActiveHeight ++
          (plan.candidate.zip newUndos).flatMap (fun p => connectedOps p.1 p.2) ++
          applyUtxoDelta delta ++ [.setTip tip.blockId tip.height] ++ preferOp becomesPreferred tip
        next := { s with
          utxos := staged
          tip := tip
          headerTip := if becomesPreferred then tip else s.headerTip }
        reply := .ok .reorganized })

def reorganize (s : ChainState) (candidateBlock : Block) (candidateIndex : BlockIndexRecord)
    (verifier : SpendVerifier) : Result (Action AcceptOutcome) := do
  let candidateId := candidateBlock.header.blockId
  let discovery ← discoverFork s.db candidateId candidateIndex
  ensure (discovery.forkHeight ≤ s.tip.height)
    (.corruptState "candidate fork height exceeds active tip")
  let depth := s.tip.height - discovery.forkHeight
  if reorgDepthAllowed depth = false then
    pure (.commit
      { batch := [.setHealth .reindexRequired]
        next := { s with sessionHealth := .reindexRequired }
        reply := .error .reindexRequired })
  else do
    let plan ← loadReorgPlan s.db s.tip.height discovery candidateId candidateBlock
    applyReorgPlan s plan candidateId verifier

end

end Oregon
