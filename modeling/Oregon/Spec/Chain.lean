import Oregon.Spec.Storage

/-! The chain state and the walks over the block index: the branch view a header
is checked on, the search for the fork with the active chain, and the loading of
what a reorganization needs. -/

namespace Oregon

open Lib Std

def REORG_WINDOW : ℕ := 8064

inductive PowError where
  | cacheAllocationFailed
  | vmAllocationFailed
  deriving DecidableEq, Repr

inductive ChainStateError where
  | storage (error : StorageError)
  | consensus (error : ConsensusError)
  | pow (error : PowError)
  | utxo (error : UtxoError)
  | unknownParent (id : Hash256)
  | missingBlockBody (id : Hash256)
  | missingUndo (id : Hash256)
  | configMismatch (message : String)
  | corruptState (message : String)
  | storageFaulted
  | reindexRequired
  deriving DecidableEq, Repr

structure ChainConfig where
  anchorHeader : BlockHeader
  genesisTimestamp : UInt64
  params : ConsensusParams
  deriving DecidableEq, Repr

/-- A block and the work of its chain: the active tip, or the preferred header. -/
structure Tip where
  blockId : Hash256
  height : ℕ
  cumulativeWork : ℕ
  deriving DecidableEq, Repr

inductive SessionHealth where
  | healthy
  | storageFaulted
  | reindexRequired
  deriving DecidableEq, Repr

inductive AcceptOutcome where
  | extended
  | storedSideChain
  | reorganized
  deriving DecidableEq, Repr

structure ChainState where
  db : OregonDb
  config : ChainConfig
  tip : Tip
  headerTip : Tip
  utxos : UtxoState
  sessionHealth : SessionHealth

abbrev Result := Except ChainStateError

def corrupt {α : Type} (message : String) : Result α := .error (.corruptState message)

section Branch

/-- A branch record is used only when it is valid, linked to an indexed valid
parent, one higher than it, and carries its parent's work plus its own. -/
def checkedIndex (db : OregonDb) (id : Hash256) : Result BlockIndexRecord := do
  let record ← orElse (db.getIndex id) (.corruptState s!"missing branch index for {Hash256.debug id}")
  ensure (record.validation ≠ .invalid)
    (.corruptState s!"invalid block {Hash256.debug id} cannot be used as branch ancestry")
  if record.height = 0 then do
    ensure (record.cumulativeWork = 0)
      (.corruptState "height-zero branch anchor has non-zero chainwork")
    pure record
  else do
    let parent ← orElse (db.getIndex record.parent)
      (.corruptState s!"missing parent index for {Hash256.debug id}")
    ensure (parent.validation ≠ .invalid)
      (.corruptState s!"block {Hash256.debug id} descends from an invalid parent")
    let expectedHeight ← orElse (checkedAdd parent.height 1) (.corruptState "branch height overflow")
    ensure (record.height = expectedHeight) (.corruptState
      s!"branch height {record.height} does not follow parent height {parent.height}")
    let target ← (Target.fromLeBytes record.header.difficultyCommitment).mapError fun _ =>
      .corruptState "invalid branch target: target must be non-zero"
    ensure (record.cumulativeWork = parent.cumulativeWork + blockWork target)
      (.corruptState "branch cumulative chainwork mismatch")
    pure record

/-- Walks down `steps` parents. A checked record is one higher than its parent,
so `steps` is exactly how far the walk has to go. -/
def walkDown (db : OregonDb) : ℕ → Hash256 → BlockIndexRecord → Result Hash256
  | 0, id, _ => pure id
  | steps + 1, _, current => do
    let parent ← checkedIndex db current.parent
    walkDown db steps current.parent parent

def ancestorIdAtHeight (db : OregonDb) (tip : Hash256) (height : ℕ) : Result (Option Hash256) := do
  let current ← checkedIndex db tip
  if current.height < height then pure none
  else do
    let id ← walkDown db (current.height - height) tip current
    pure (some id)

/-- Up to `count` timestamps from `id` down to the anchor. -/
def timestampsFrom (db : OregonDb) : ℕ → Hash256 → Result (List UInt64)
  | 0, _ => pure []
  | count + 1, id => do
    let current ← checkedIndex db id
    if current.height = 0 then pure [current.header.timestamp]
    else do
      let rest ← timestampsFrom db count current.parent
      pure (current.header.timestamp :: rest)

def mtpWindow (db : OregonDb) (tip : Hash256) : Result (List UInt64) := timestampsFrom db 11 tip

end Branch

section Reorg

variable [Crypto]

structure CandidateNode where
  id : Hash256
  index : BlockIndexRecord

structure ForkDiscovery where
  forkHeight : ℕ
  candidate : List CandidateNode

structure ReorgCandidate where
  id : Hash256
  index : BlockIndexRecord
  block : Block

structure ReorgPlan where
  forkHeight : ℕ
  oldActive : List (Hash256 × BlockUndo)
  candidate : List ReorgCandidate

def reorgDepthAllowed (depth : ℕ) : Bool := depth ≤ REORG_WINDOW

def validateIndexIdentity (id : Hash256) (record : BlockIndexRecord) : Result Unit :=
  ensure (record.header.blockId = id ∧ record.parent = record.header.previousBlock)
    (.corruptState s!"block index identity mismatch for {Hash256.debug id}")

def validateParentChild (parentId : Hash256) (parent : BlockIndexRecord) (childId : Hash256)
    (child : BlockIndexRecord) : Result Unit := do
  validateIndexIdentity parentId parent
  validateIndexIdentity childId child
  ensure (parent.validation ≠ .invalid) (.corruptState
    s!"candidate block {Hash256.debug childId} descends from invalid parent {Hash256.debug parentId}")
  ensure (child.parent = parentId)
    (.corruptState s!"candidate parent mismatch for {Hash256.debug childId}")
  let expectedHeight ← orElse (checkedAdd parent.height 1)
    (.corruptState "candidate branch height overflow")
  ensure (child.height = expectedHeight) (.corruptState
    s!"candidate height {child.height} does not follow parent height {parent.height}")
  let target ← (Target.fromLeBytes child.header.difficultyCommitment).mapError fun _ =>
    .corruptState "invalid candidate target: target must be non-zero"
  ensure (child.cumulativeWork = parent.cumulativeWork + blockWork target)
    (.corruptState "candidate cumulative chainwork mismatch")

/-- From `current` down to the active chain, the nodes met on the way in `above`,
lowest first. The height falls by one at every step, so `current.height` bounds
the walk and it is at height zero that the first equation applies. -/
def discoverForkFrom (db : OregonDb) :
    ℕ → Hash256 → BlockIndexRecord → List CandidateNode → Result ForkDiscovery
  | 0, id, current, above =>
    if db.activeIdAtHeight current.height = some id then
      pure { forkHeight := current.height, candidate := above }
    else if current.validation = .invalid then
      corrupt s!"invalid candidate ancestry at {Hash256.debug id}"
    else corrupt "candidate branch does not share the active anchor"
  | steps + 1, id, current, above => do
    if db.activeIdAtHeight current.height = some id then
      pure { forkHeight := current.height, candidate := above }
    else if current.validation = .invalid then
      corrupt s!"invalid candidate ancestry at {Hash256.debug id}"
    else if current.height = 0 then corrupt "candidate branch does not share the active anchor"
    else do
      let parent ← orElse (db.getIndex current.parent)
        (.corruptState s!"missing candidate parent index {Hash256.debug current.parent}")
      validateParentChild current.parent parent id current
      discoverForkFrom db steps current.parent parent (⟨id, current⟩ :: above)

def discoverFork (db : OregonDb) (candidateId : Hash256) (candidateIndex : BlockIndexRecord) :
    Result ForkDiscovery := do
  validateIndexIdentity candidateId candidateIndex
  discoverForkFrom db candidateIndex.height candidateId candidateIndex []

/-- The undo records of the active heights `forkHeight + 1 .. forkHeight + count`, highest first. -/
def loadOldActive (db : OregonDb) (forkHeight : ℕ) : ℕ → Result (List (Hash256 × BlockUndo))
  | 0 => pure []
  | count + 1 => do
    let height := forkHeight + 1 + count
    let id ← orElse (db.activeIdAtHeight height)
      (.corruptState s!"missing active mapping at height {height}")
    let undo ← orElse (db.getUndo id) (.missingUndo id)
    let rest ← loadOldActive db forkHeight count
    pure ((id, undo) :: rest)

/-- The body of a node of the candidate path: the delivered one, or a retained one. -/
def loadCandidate (db : OregonDb) (currentCandidateId : Hash256) (currentCandidateBlock : Block)
    (node : CandidateNode) : Result ReorgCandidate := do
  let block ←
    if node.id = currentCandidateId then pure currentCandidateBlock
    else do
      ensure (node.index.bodyRetained = true) (.missingBlockBody node.id)
      let stored ← (db.getBlock node.id).mapError ChainStateError.storage
      orElse stored (.missingBlockBody node.id)
  ensure (block.header.blockId = node.id ∧ block.header = node.index.header)
    (.corruptState s!"candidate body/header identity mismatch for {Hash256.debug node.id}")
  pure { id := node.id, index := node.index, block }

def loadReorgPlan (db : OregonDb) (activeTipHeight : ℕ) (discovery : ForkDiscovery)
    (currentCandidateId : Hash256) (currentCandidateBlock : Block) : Result ReorgPlan := do
  let oldActive ← loadOldActive db discovery.forkHeight (activeTipHeight - discovery.forkHeight)
  let candidate ← discovery.candidate.mapM
    (loadCandidate db currentCandidateId currentCandidateBlock)
  pure { forkHeight := discovery.forkHeight, oldActive, candidate }

end Reorg

end Oregon
