import Oregon.Spec.Prune

/-! Opening a database: the first opening writes the anchor, a later one checks
every record of the active chain before it trusts it. -/

namespace Oregon

open Lib Std

def validateConfig (config : ChainConfig) : Result Unit := do
  ensure (config.anchorHeader.previousBlock = 0)
    (.configMismatch "height-zero anchor must have a zero previous block id")
  ensure (config.anchorHeader.timestamp = config.genesisTimestamp)
    (.configMismatch "anchor timestamp must equal genesis timestamp")
  let target ← (Target.fromLeBytes config.anchorHeader.difficultyCommitment).mapError fun _ =>
    .configMismatch "invalid anchor target: target must be non-zero"
  (target.validateAgainst config.params.powLimit).mapError fun _ =>
    .configMismatch "anchor target exceeds configured limit: target exceeds POW_LIMIT"

section

variable [Crypto]

def bootstrapBatch (config : ChainConfig) : StorageBatch :=
  let anchorId := config.anchorHeader.blockId
  [.putIndex { header := config.anchorHeader, parent := config.anchorHeader.previousBlock,
               height := 0, cumulativeWork := 0, validation := .fullyValidated,
               bodyRetained := false },
   .setActiveHeight 0 anchorId,
   .setTip anchorId 0,
   .setPreferredHeaderTip anchorId 0,
   .setConfigAnchorId anchorId,
   .setConfigGenesisTimestamp config.genesisTimestamp,
   .setHealth .healthy,
   .setPruneCursor 0]

def bootstrap (db : OregonDb) (config : ChainConfig) (fault : Option String) :
    Result ChainState := do
  let anchorId := config.anchorHeader.blockId
  ensure (db.configAnchorId = none ∧ db.configGenesisTimestamp = none ∧ db.health = none ∧
      db.pruneCursor = none ∧ db.activeIdAtHeight 0 = none ∧ db.preferredHeaderTip = none ∧
      db.getIndex anchorId = none)
    (.corruptState "partial chainstate bootstrap metadata")
  let db ← (db.commit fault (bootstrapBatch config)).mapError ChainStateError.storage
  pure { db, config, tip := ⟨anchorId, 0, 0⟩, headerTip := ⟨anchorId, 0, 0⟩,
         utxos := UtxoState.new, sessionHealth := .healthy }

/-- What the check of the active chain carries from one height to the next. -/
structure ActiveScan where
  previousId : Option Hash256
  previousWork : ℕ
  finalWork : Option ℕ
  deriving DecidableEq, Repr

def checkAnchorRecord (config : ChainConfig) (blockId : Hash256) (record : BlockIndexRecord) :
    Result Unit := do
  ensure (blockId = config.anchorHeader.blockId ∧ record.header = config.anchorHeader)
    (.configMismatch "height-zero anchor differs from configured anchor")
  ensure (record.cumulativeWork = 0)
    (.corruptState "height-zero anchor cumulative work is not zero")
  ensure (record.bodyRetained = false)
    (.corruptState "height-zero anchor unexpectedly retains a block body")

def checkRetained (db : OregonDb) (height : ℕ) (blockId : Hash256) : Result Unit := do
  let body ← (db.getBlock blockId).mapError ChainStateError.storage
  ensure (body.isSome = true) (.corruptState s!"missing retained block body at height {height}")
  ensure ((db.getUndo blockId).isSome = true)
    (.corruptState s!"missing retained undo at height {height}")

def checkLinkedRecord (db : OregonDb) (config : ChainConfig) (maximumSafePruneCursor : ℕ)
    (scan : ActiveScan) (height : ℕ) (blockId : Hash256) (record : BlockIndexRecord) :
    Result Unit := do
  let parentId ← orElse scan.previousId (.corruptState "missing prior active block")
  ensure (record.parent = parentId) (.corruptState s!"active parent mismatch at height {height}")
  let target ← (Target.fromLeBytes record.header.difficultyCommitment).mapError fun _ =>
    .corruptState s!"invalid target at height {height}: target must be non-zero"
  (target.validateAgainst config.params.powLimit).mapError fun _ =>
    .corruptState s!"invalid target at height {height}: target exceeds POW_LIMIT"
  ensure (record.cumulativeWork = scan.previousWork + blockWork target)
    (.corruptState s!"cumulative chainwork mismatch at height {height}")
  ensure (¬ (maximumSafePruneCursor < height ∧ record.bodyRetained = false)) (.corruptState
    s!"active block at height {height} is inside retained range but marked pruned")
  if record.bodyRetained then checkRetained db height blockId else pure ()

def checkActiveHeight (db : OregonDb) (config : ChainConfig) (maximumSafePruneCursor : ℕ)
    (scan : ActiveScan) (height : ℕ) : Result ActiveScan := do
  let blockId ← orElse (db.activeIdAtHeight height)
    (.corruptState s!"missing active mapping at height {height}")
  let record ← orElse (db.getIndex blockId)
    (.corruptState s!"missing block index at height {height}")
  ensure (record.height = height) (.corruptState
    s!"block index height {record.height} does not match active height {height}")
  ensure (record.validation = .fullyValidated)
    (.corruptState s!"active block at height {height} is not fully validated")
  if height = 0 then checkAnchorRecord config blockId record
  else checkLinkedRecord db config maximumSafePruneCursor scan height blockId record
  pure { previousId := some blockId, previousWork := record.cumulativeWork,
         finalWork := some record.cumulativeWork }

def loadPreferredHeaderTip (db : OregonDb) (expectedAnchorId : Hash256) : Result Tip := do
  let (blockId, height) ← orElse db.preferredHeaderTip
    (.corruptState "missing preferred header tip")
  let record ← orElse (db.getIndex blockId) (.corruptState "missing preferred header tip index")
  ensure (record.height = height)
    (.corruptState "preferred header tip height does not match index")
  ensure (record.validation ≠ .invalid) (.corruptState "preferred header tip is marked invalid")
  let anchor ← ancestorIdAtHeight db blockId 0
  let anchorId ← orElse anchor
    (.corruptState "preferred header branch has no height-zero anchor")
  ensure (anchorId = expectedAnchorId)
    (.corruptState "preferred header branch does not reach configured anchor")
  pure ⟨blockId, height, record.cumulativeWork⟩

def checkHealth : NodeHealth → Result Unit
  | .healthy => pure ()
  | .reindexRequired => throw .reindexRequired

def reopen (db : OregonDb) (config : ChainConfig) (tipId : Hash256) (tipHeight : ℕ) :
    Result ChainState := do
  let expectedAnchorId := config.anchorHeader.blockId
  let storedAnchorId ← orElse db.configAnchorId (.corruptState "missing config anchor id")
  ensure (storedAnchorId = expectedAnchorId)
    (.configMismatch "anchor block id differs from persisted chain")
  let storedGenesisTimestamp ← orElse db.configGenesisTimestamp
    (.corruptState "missing config genesis timestamp")
  ensure (storedGenesisTimestamp = config.genesisTimestamp)
    (.configMismatch "genesis timestamp differs from persisted chain")
  let health ← orElse db.health (.corruptState "missing node health state")
  checkHealth health
  let pruneCursor ← orElse db.pruneCursor (.corruptState "missing prune cursor")
  let maximumSafePruneCursor := tipHeight - REORG_WINDOW
  ensure (pruneCursor ≤ maximumSafePruneCursor) (.corruptState
    s!"prune cursor {pruneCursor} exceeds safe cursor {maximumSafePruneCursor} for tip {tipHeight}")
  let scan ← (List.range (tipHeight + 1)).foldlM
    (checkActiveHeight db config maximumSafePruneCursor) ⟨none, 0, none⟩
  ensure (scan.previousId = some tipId)
    (.corruptState "active tip id does not match final active mapping")
  let cumulativeWork ← orElse scan.finalWork (.corruptState "active chain has no anchor")
  let headerTip ← loadPreferredHeaderTip db expectedAnchorId
  let utxos ← (UtxoState.tryFromEntries db.iterUtxos).mapError ChainStateError.utxo
  pure { db, config, tip := ⟨tipId, tipHeight, cumulativeWork⟩, headerTip, utxos,
         sessionHealth := .healthy }

/-- Opens the chain state kept in `db`. -/
def ChainState.openDb (db : OregonDb) (config : ChainConfig) (fault : Option String) :
    Result ChainState := do
  validateConfig config
  match db.activeTip with
  | none => bootstrap db config fault
  | some (tipId, tipHeight) => reopen db config tipId tipHeight

end

end Oregon
