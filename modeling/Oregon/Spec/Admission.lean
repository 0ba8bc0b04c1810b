import Oregon.Spec.Transition

/-! Header import and block admission. -/

namespace Oregon

open Lib Std

inductive HeaderImportStatus where
  | known
  | stored
  | preferred
  deriving DecidableEq, Repr

structure HeaderImportOutcome where
  blockId : Hash256
  height : ℕ
  status : HeaderImportStatus
  preferredTip : Tip
  deriving DecidableEq, Repr

section

variable [Crypto]

/-- The branch view as a source of key blocks: any failure counts as absence. -/
def keyBlockAt (db : OregonDb) (tip : Hash256) (height : ℕ) : Option Hash256 :=
  match ancestorIdAtHeight db tip height with
  | .ok id => id
  | .error _ => none

/-- The RandomX engine for a key, when its memory can be allocated. -/
def lightEngine (fault : Option PowError) (key : Hash256) : Result Hash256 :=
  match fault with
  | some e => .error (.pow e)
  | none => .ok key

def validateCandidateHeader (s : ChainState) (header : BlockHeader) (engine : Option PowError) :
    Result BlockIndexRecord := do
  let parentId := header.previousBlock
  let parent ← orElse (s.db.getIndex parentId) (.unknownParent parentId)
  ensure (parent.validation ≠ .invalid) (.corruptState "candidate parent is marked invalid")
  let window ← mtpWindow s.db parentId
  let height ← orElse (checkedAdd parent.height 1) (.corruptState "candidate height overflow")
  let facts ← (validateHeaderPrePow header
    { height, parent := parent.header, genesisTimestamp := s.config.genesisTimestamp,
      mtpWindow := window } s.config.params).mapError ChainStateError.consensus
  let keyBlock ← ancestorIdAtHeight s.db parentId (keyBlockHeight height)
  let keyBlockId ← orElse keyBlock (.consensus .powKeyBlockUnavailable)
  let engineKey ← lightEngine engine (deriveRandomxKey keyBlockId)
  let _ ← (validateHeaderPow header facts (keyBlockAt s.db parentId) engineKey).mapError
    ChainStateError.consensus
  pure { header, parent := parentId, height,
         cumulativeWork := parent.cumulativeWork + facts.work,
         validation := .headerValidated, bodyRetained := false }

def acceptHeaderHealthy (s : ChainState) (header : BlockHeader) (engine : Option PowError) :
    Result (Action HeaderImportOutcome) := do
  let blockId := header.blockId
  match s.db.getIndex blockId with
  | some existing => do
    ensure (existing.validation ≠ .invalid) (.corruptState "known header is marked invalid")
    pure (.answer { blockId, height := existing.height, status := .known,
                    preferredTip := s.headerTip })
  | none => do
    let index ← validateCandidateHeader s header engine
    let candidateTip : Tip := ⟨blockId, index.height, index.cumulativeWork⟩
    let becomesPreferred := decide (s.headerTip.cumulativeWork < candidateTip.cumulativeWork)
    let headerTip := if becomesPreferred then candidateTip else s.headerTip
    pure (.commit
      { batch := .putIndex index :: preferOp becomesPreferred candidateTip
        next := { s with headerTip }
        reply := .ok { blockId, height := index.height,
                       status := if becomesPreferred then .preferred else .stored,
                       preferredTip := headerTip } })

def existingOutcome (s : ChainState) (blockId : Hash256) : AcceptOutcome :=
  if blockId = s.tip.blockId then .extended else .storedSideChain

/-- A body whose header has passed: it extends the tip, or carries a heavier branch,
or is kept for later. -/
def admitBody (s : ChainState) (block : Block) (index : BlockIndexRecord)
    (verifier : SpendVerifier) : Result (Action AcceptOutcome) :=
  if index.parent = s.tip.blockId then
    extendActive s block index.height index.cumulativeWork verifier
  else
    let index := { index with bodyRetained := true }
    if s.tip.cumulativeWork < index.cumulativeWork then reorganize s block index verifier
    else pure (.commit
      { batch := [.putBlock block, .putIndex index]
        next := s
        reply := .ok .storedSideChain })

def acceptBlockHealthy (s : ChainState) (block : Block) (verifier : SpendVerifier)
    (engine : Option PowError) : Result (Action AcceptOutcome) := do
  let blockId := block.header.blockId
  match s.db.getIndex blockId with
  | some existing =>
    match existing.validation with
    | .invalid => corrupt "known candidate is marked invalid"
    | .fullyValidated => pure (.answer (existingOutcome s blockId))
    | .headerValidated =>
      if existing.bodyRetained then pure (.answer (existingOutcome s blockId))
      else do
        ensure (existing.header = block.header)
          (.corruptState "known candidate header does not match stored index")
        admitBody s block existing verifier
  | none => do
    let index ← validateCandidateHeader s block.header engine
    admitBody s block index verifier

end

end Oregon
