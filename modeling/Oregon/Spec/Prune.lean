import Oregon.Spec.Admission

/-! Pruning: which bodies and undo records are given up once the active tip has
moved far enough. -/

namespace Oregon

open Lib Std

structure PruneReport where
  deletedBodies : ℕ
  deletedUndos : ℕ
  deriving DecidableEq, Repr

def retainedActiveFloor (height : ℕ) : ℕ := height - (REORG_WINDOW - 1)

def pruneCursorForTip (height : ℕ) : ℕ := height - REORG_WINDOW

def shouldRetainBody (blockHeight commonForkHeight activeTipHeight : ℕ) : Bool :=
  if blockHeight < retainedActiveFloor activeTipHeight then false
  else decide (commonForkHeight ≤ activeTipHeight) &&
    decide (activeTipHeight - commonForkHeight ≤ REORG_WINDOW)

def shouldRetainUndo (isActive : Bool) (blockHeight activeTipHeight : ℕ) : Bool :=
  isActive && decide (blockHeight ≤ activeTipHeight) &&
    decide (retainedActiveFloor activeTipHeight ≤ blockHeight)

section

variable [Crypto]

/-- Whether a retained body stays; the fork of a side branch is looked up only
when its height does not decide already. -/
def retainBody (db : OregonDb) (activeTipHeight : ℕ) (isActive : Bool) (blockId : Hash256)
    (index : BlockIndexRecord) : Result Bool :=
  if index.validation = .invalid ∨ index.height < retainedActiveFloor activeTipHeight then
    pure false
  else do
    let commonForkHeight ←
      if isActive then pure index.height
      else do
        let discovery ← discoverFork db blockId index
        pure discovery.forkHeight
    pure (shouldRetainBody index.height commonForkHeight activeTipHeight)

def pruneBody (blockId : Hash256) (index : BlockIndexRecord) (retain : Bool)
    (acc : StorageBatch × PruneReport) : Result (StorageBatch × PruneReport) :=
  if retain then pure acc
  else do
    let deletedBodies ← orElse (checkedAdd acc.2.deletedBodies 1)
      (.corruptState "pruned body count overflow")
    pure (acc.1 ++ [.deleteBlock blockId, .putIndex { index with bodyRetained := false }],
      { acc.2 with deletedBodies })

def pruneUndo (db : OregonDb) (blockId : Hash256) (retain : Bool)
    (acc : StorageBatch × PruneReport) : Result (StorageBatch × PruneReport) :=
  match db.getUndo blockId, retain with
  | some _, false => do
    let deletedUndos ← orElse (checkedAdd acc.2.deletedUndos 1)
      (.corruptState "pruned undo count overflow")
    pure (acc.1 ++ [.deleteUndo blockId], { acc.2 with deletedUndos })
  | none, true => throw (.missingUndo blockId)
  | _, _ => pure acc

/-- One index record whose body is retained. -/
def pruneRecord (db : OregonDb) (activeTipHeight : ℕ) (acc : StorageBatch × PruneReport)
    (entry : Hash256 × BlockIndexRecord) : Result (StorageBatch × PruneReport) := do
  let (blockId, index) := entry
  let isActive := decide (db.activeIdAtHeight index.height = some blockId)
  ensure (¬ (isActive = true ∧ index.validation ≠ .fullyValidated)) (.corruptState
    s!"active block at height {index.height} is not fully validated during pruning")
  let body ← (db.getBlock blockId).mapError ChainStateError.storage
  ensure (body.isSome = true) (.corruptState
    s!"block index marks body retained but body is missing for {Hash256.debug blockId}")
  let retain ← retainBody db activeTipHeight isActive blockId index
  let acc ← pruneBody blockId index retain acc
  pruneUndo db blockId (shouldRetainUndo isActive index.height activeTipHeight) acc

def planPrune (db : OregonDb) (activeTipHeight : ℕ) : Result (StorageBatch × PruneReport) := do
  let (batch, report) ← db.iterBodyRetainedIndices.foldlM (pruneRecord db activeTipHeight)
    ([], { deletedBodies := 0, deletedUndos := 0 })
  pure (batch ++ [.setPruneCursor (pruneCursorForTip activeTipHeight)], report)

end

end Oregon
