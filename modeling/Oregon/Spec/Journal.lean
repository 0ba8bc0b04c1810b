import Oregon.Lib.Nested
import Oregon.Spec.ContractState
import Oregon.Spec.Reserve

/-! The execution journal: frames of pending writes over the snapshots of some commitment
domains, within limits on depth, frames, entries and bytes. A child frame is merged into
its parent or dropped; the root frame is published at the end. -/

namespace Oregon.Execution

open Lib Std ContractState

/-- The order of the discriminants. -/
instance : Ord CommitmentDomainId := ⟨compareOn CommitmentDomainId.toU16⟩

instance : TransOrd CommitmentDomainId :=
  inferInstanceAs (TransCmp (compareOn CommitmentDomainId.toU16))

instance : LawfulEqOrd CommitmentDomainId where
  eq_of_compare {a b} h := by
    have heq : a.toU16 = b.toU16 := LawfulEqOrd.eq_of_compare h
    revert heq
    cases a <;> cases b <;> decide

def MAX_JOURNAL_DEPTH : ℕ := 64
def MAX_JOURNAL_FRAMES : ℕ := 4096
def MAX_JOURNAL_ENTRIES : ℕ := 65536
def MAX_JOURNAL_BYTES : ℕ := 16777216
def MAX_JOURNAL_SNAPSHOTS : ℕ := 6

inductive JournalError where
  | invalidLimits
  | emptySnapshots
  | tooManySnapshots (count : ℕ)
  | duplicateSnapshotDomain (domain : CommitmentDomainId)
  | unsupportedDomain (domain : CommitmentDomainId)
  | unconfiguredDomain (domain : CommitmentDomainId)
  | rootFrameLifecycle
  | openChildFrames
  | depthLimitExceeded
  | frameLimitExceeded
  | entryLimitExceeded
  | byteLimitExceeded
  | accountingInvariant
  | state (e : StateError)
  deriving DecidableEq, Repr

structure JournalContextV1 where
  chainId : ℕ
  height : ℕ
  parentBlockHash : Hash256
  txid : Hash256
  deriving DecidableEq, Repr

/-- Limits that are positive and within the ceilings. -/
structure JournalLimitsV1 where
  maxDepth : ℕ
  maxFrames : ℕ
  maxEntries : ℕ
  maxBytes : ℕ
  valid : ¬ (maxDepth = 0 ∨ maxFrames = 0 ∨ maxEntries = 0 ∨ maxBytes = 0 ∨
    MAX_JOURNAL_DEPTH < maxDepth ∨ MAX_JOURNAL_FRAMES < maxFrames ∨
    MAX_JOURNAL_ENTRIES < maxEntries ∨ MAX_JOURNAL_BYTES < maxBytes)
  deriving DecidableEq, Repr

def JournalLimitsV1.new (maxDepth maxFrames maxEntries maxBytes : ℕ) :
    Except JournalError JournalLimitsV1 :=
  if h : maxDepth = 0 ∨ maxFrames = 0 ∨ maxEntries = 0 ∨ maxBytes = 0 ∨
      MAX_JOURNAL_DEPTH < maxDepth ∨ MAX_JOURNAL_FRAMES < maxFrames ∨
      MAX_JOURNAL_ENTRIES < maxEntries ∨ MAX_JOURNAL_BYTES < maxBytes then .error .invalidLimits
  else .ok ⟨maxDepth, maxFrames, maxEntries, maxBytes, h⟩

def JournalLimitsV1.default : JournalLimitsV1 :=
  ⟨MAX_JOURNAL_DEPTH, MAX_JOURNAL_FRAMES, MAX_JOURNAL_ENTRIES, MAX_JOURNAL_BYTES, by decide⟩

inductive JournalIntentV1 where
  | committed
  | reverted
  deriving DecidableEq, Repr

structure JournalDomainRootsV1 where
  domain : CommitmentDomainId
  oldRoot : Hash256
  newRoot : Hash256
  deriving DecidableEq, Repr

structure JournalResultV1 where
  context : JournalContextV1
  roots : List JournalDomainRootsV1
  transitions : List StateTransition

/-- A put carries a value, a deletion none. -/
abbrev JournalValue := Option Bytes

def JournalValue.valueLen (value : JournalValue) : ℕ :=
  match value with
  | some value => value.length
  | none => 0

abbrev JournalWrites := ExtTreeMap CommitmentDomainId (ExtTreeMap Bytes JournalValue)

structure JournalFrame where
  writes : JournalWrites
  entries : ℕ
  retainedBytes : ℕ

def JournalFrame.default : JournalFrame := ⟨∅, 0, 0⟩

def JournalFrame.entryBytes (keyLen : ℕ) (value : JournalValue) : ℕ := keyLen + value.valueLen

/-- What the frame has written to a key. -/
def JournalFrame.find (frame : JournalFrame) (domain : CommitmentDomainId) (key : Bytes) :
    Option JournalValue :=
  find₂ frame.writes domain key

/-- The frames are listed from the newest to the root. -/
structure ExecutionJournalV1 where
  source : StateSource
  context : JournalContextV1
  snapshots : ExtTreeMap CommitmentDomainId DomainSnapshot
  frames : List JournalFrame
  limits : JournalLimitsV1
  totalFramesCreated : ℕ
  liveEntries : ℕ
  retainedBytes : ℕ

def validateSupportedDomain (domain : CommitmentDomainId) : Except JournalError Unit :=
  match domain with
  | .wasm | .executionAccounting | .executionReceipts | .asyncOutbox | .asyncConsumed | .feeState =>
    pure ()
  | .nativeUtxo | .evm => throw (.unsupportedDomain domain)

def validateKey (key : Bytes) : Except JournalError Unit :=
  ensure (key.length ≤ MAX_STATE_KEY_BYTES) (.state (.keyTooLarge key.length))

def validateValue (value : Bytes) : Except JournalError Unit :=
  ensure (value.length ≤ MAX_STATE_VALUE_BYTES) (.state (.valueTooLarge value.length))

/-- Adds a snapshot, for a domain that has none yet. -/
def addSnapshot (configured : ExtTreeMap CommitmentDomainId DomainSnapshot)
    (snapshot : DomainSnapshot) :
    Except JournalError (ExtTreeMap CommitmentDomainId DomainSnapshot) := do
  validateSupportedDomain snapshot.domain
  ensure (snapshot.domain ∉ configured) (.duplicateSnapshotDomain snapshot.domain)
  pure (configured.insert snapshot.domain snapshot)

def ExecutionJournalV1.new (source : StateSource) (context : JournalContextV1)
    (snapshots : List DomainSnapshot) (limits : JournalLimitsV1) :
    Except JournalError ExecutionJournalV1 := do
  ensure (snapshots ≠ []) .emptySnapshots
  ensure (snapshots.length ≤ MAX_JOURNAL_SNAPSHOTS) (.tooManySnapshots snapshots.length)
  let configured ← snapshots.foldlM addSnapshot ∅
  pure { source, context, snapshots := configured, frames := [.default], limits,
         totalFramesCreated := 1, liveEntries := 0, retainedBytes := 0 }

def ExecutionJournalV1.configuredSnapshot (j : ExecutionJournalV1) (domain : CommitmentDomainId) :
    Except JournalError DomainSnapshot := do
  validateSupportedDomain domain
  orElse j.snapshots[domain]? (.unconfiguredDomain domain)

/-- The next number of entries: one more, unless the write replaces an entry. -/
def nextEntries (existing : Option JournalValue) (entries : ℕ) (e : JournalError) :
    Except JournalError ℕ :=
  match existing with
  | some _ => pure entries
  | none => orElse (checkedAdd entries 1) e

/-- The next number of bytes, with those of a replaced entry taken away first. -/
def nextBytes (bytes oldBytes newBytes : ℕ) (e : JournalError) : Except JournalError ℕ :=
  orElse ((checkedSub bytes oldBytes).bind fun bytes => checkedAdd bytes newBytes) e

/-- Every check comes before the first change, so the call changes the journal only when it
returns one. The same holds of the frame operations. -/
def ExecutionJournalV1.stageWrite (j : ExecutionJournalV1) (domain : CommitmentDomainId)
    (key : Bytes) (value : JournalValue) : Except JournalError ExecutionJournalV1 := do
  let _ ← j.configuredSnapshot domain
  validateKey key
  value.toList.forM validateValue
  match j.frames with
  | [] => throw .accountingInvariant
  | top :: below => do
    let existing := top.find domain key
    let oldBytes := (existing.map (JournalFrame.entryBytes key.length)).getD 0
    let newBytes ← orElse (checkedAdd key.length value.valueLen) .byteLimitExceeded
    let nextLiveEntries ← nextEntries existing j.liveEntries .entryLimitExceeded
    ensure (nextLiveEntries ≤ j.limits.maxEntries) .entryLimitExceeded
    let nextRetainedBytes ← nextBytes j.retainedBytes oldBytes newBytes .byteLimitExceeded
    ensure (nextRetainedBytes ≤ j.limits.maxBytes) .byteLimitExceeded
    let nextFrameEntries ← nextEntries existing top.entries .accountingInvariant
    let nextFrameBytes ← nextBytes top.retainedBytes oldBytes newBytes .accountingInvariant
    let top := { writes := insert₂ top.writes domain key value, entries := nextFrameEntries,
                 retainedBytes := nextFrameBytes }
    pure { j with frames := top :: below, liveEntries := nextLiveEntries,
                  retainedBytes := nextRetainedBytes }

def ExecutionJournalV1.put (j : ExecutionJournalV1) (domain : CommitmentDomainId)
    (key value : Bytes) : Except JournalError ExecutionJournalV1 :=
  j.stageWrite domain key (some value)

def ExecutionJournalV1.delete (j : ExecutionJournalV1) (domain : CommitmentDomainId)
    (key : Bytes) : Except JournalError ExecutionJournalV1 :=
  j.stageWrite domain key none

def ExecutionJournalV1.beginFrame (j : ExecutionJournalV1) :
    Except JournalError ExecutionJournalV1 := do
  let nextDepth ← orElse (checkedAdd j.frames.length 1) .depthLimitExceeded
  ensure (nextDepth ≤ j.limits.maxDepth) .depthLimitExceeded
  let nextTotal ← orElse (checkedAdd j.totalFramesCreated 1) .frameLimitExceeded
  ensure (nextTotal ≤ j.limits.maxFrames) .frameLimitExceeded
  pure { j with frames := .default :: j.frames, totalFramesCreated := nextTotal }

def ExecutionJournalV1.revertFrame (j : ExecutionJournalV1) :
    Except JournalError ExecutionJournalV1 := do
  ensure (j.frames.length ≠ 1) .rootFrameLifecycle
  match j.frames with
  | [] => throw .accountingInvariant
  | child :: below => do
    let nextLiveEntries ← orElse (checkedSub j.liveEntries child.entries) .accountingInvariant
    let nextRetainedBytes ←
      orElse (checkedSub j.retainedBytes child.retainedBytes) .accountingInvariant
    pure { j with frames := below, liveEntries := nextLiveEntries,
                  retainedBytes := nextRetainedBytes }

/-- Counts the entry of the parent that `key` replaces, if there is one. -/
def countReplaced (parentWrites : ExtTreeMap Bytes JournalValue) (count : ℕ × ℕ) (key : Bytes) :
    Except JournalError (ℕ × ℕ) :=
  match parentWrites[key]? with
  | none => pure count
  | some parentValue => do
    let entries ← orElse (checkedAdd count.1 1) .accountingInvariant
    let bytes ← orElse (checkedAdd count.2 (JournalFrame.entryBytes key.length parentValue))
      .accountingInvariant
    pure (entries, bytes)

/-- The entries and bytes of the parent that the child replaces. -/
def replacedBy (parent child : JournalFrame) : Except JournalError (ℕ × ℕ) :=
  child.writes.toList.foldlM (fun count (domain, childWrites) =>
    match parent.writes[domain]? with
    | none => pure count
    | some parentWrites => childWrites.keys.foldlM (countReplaced parentWrites) count) (0, 0)

def ExecutionJournalV1.commitFrame (j : ExecutionJournalV1) :
    Except JournalError ExecutionJournalV1 := do
  ensure (j.frames.length ≠ 1) .rootFrameLifecycle
  match j.frames with
  | child :: parent :: below => do
    let (replacedEntries, replacedBytes) ← replacedBy parent child
    let nextParentEntries ← orElse ((checkedAdd parent.entries child.entries).bind
      fun value => checkedSub value replacedEntries) .accountingInvariant
    let nextParentBytes ← orElse ((checkedAdd parent.retainedBytes child.retainedBytes).bind
      fun value => checkedSub value replacedBytes) .accountingInvariant
    let nextLiveEntries ← orElse (checkedSub j.liveEntries replacedEntries) .accountingInvariant
    let nextRetainedBytes ← orElse (checkedSub j.retainedBytes replacedBytes) .accountingInvariant
    let parent := { writes := merge₂ parent.writes child.writes, entries := nextParentEntries,
                    retainedBytes := nextParentBytes }
    pure { j with frames := parent :: below, liveEntries := nextLiveEntries,
                  retainedBytes := nextRetainedBytes }
  | _ => throw .accountingInvariant

section

variable [Crypto]

def ExecutionJournalV1.read (j : ExecutionJournalV1) (domain : CommitmentDomainId) (key : Bytes) :
    Except JournalError (Option Bytes) := do
  let snapshot ← j.configuredSnapshot domain
  validateKey key
  match j.frames.findSome? fun frame => frame.find domain key with
  | some value => pure value
  | none => (readValue j.source snapshot key).mapError .state

/-- What is left to publish, and what is published already. -/
structure Publication where
  finalWrites : JournalWrites
  roots : List JournalDomainRootsV1
  transitions : List StateTransition

/-- Publishes the writes to one domain. -/
def publishDomain (source : StateSource) (p : Publication)
    (entry : CommitmentDomainId × DomainSnapshot) : Except JournalError Publication :=
  let (domain, snapshot) := entry
  match p.finalWrites[domain]? with
  | none =>
    pure { p with roots := p.roots ++ [⟨domain, snapshot.root, snapshot.root⟩] }
  | some domainWrites => do
    let writes := domainWrites.toList.map fun (key, value) => StateWrite.mk key value
    let writeSet ← (StateWriteSet.new domain writes).mapError .state
    let transition ← (applyWriteSet source snapshot writeSet).mapError .state
    pure { finalWrites := p.finalWrites.erase domain
           roots := p.roots ++ [⟨domain, snapshot.root, transition.newRoot⟩]
           transitions := p.transitions ++
             (if transition.newRoot ≠ snapshot.root then [transition] else []) }

def ExecutionJournalV1.finalize (j : ExecutionJournalV1) (intent : JournalIntentV1) :
    Except JournalError JournalResultV1 := do
  ensure (j.frames.length = 1) .openChildFrames
  match intent with
  | .reverted =>
    pure { context := j.context,
           roots := j.snapshots.toList.map fun (_, snapshot) =>
             ⟨snapshot.domain, snapshot.root, snapshot.root⟩
           transitions := [] }
  | .committed => do
    let rootFrame ← orElse j.frames.head? .accountingInvariant
    let p ← j.snapshots.toList.foldlM (publishDomain j.source) ⟨rootFrame.writes, [], []⟩
    ensure p.finalWrites.isEmpty .accountingInvariant
    pure { context := j.context, roots := p.roots, transitions := p.transitions }

end

end Oregon.Execution
