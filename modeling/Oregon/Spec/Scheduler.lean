import Oregon.Spec.Block
import Oregon.Spec.Requests
import Std.Data.ExtTreeSet

/-! The scheduler of block downloads: which peer is asked for which missing body, the
buffer of bodies that arrived before their predecessors, and what becomes of requests
that time out. -/

namespace Oregon.Sync

open Lib Std
open Peer (PeerId PerformanceSnapshot)

def MAX_IN_FLIGHT_BLOCKS_GLOBAL : ℕ := 32
def MAX_IN_FLIGHT_BLOCKS_PEER : ℕ := 8
def MAX_BUFFERED_BLOCKS : ℕ := 32
def MAX_BLOCK_ATTEMPTS : ℕ := 3

structure SyncPeer where
  peerId : PeerId
  blockRelay : Bool
  syncEligible : Bool
  performance : PerformanceSnapshot
  deriving DecidableEq, Repr

structure BufferedBlock where
  source : PeerId
  block : Block
  deriving DecidableEq, Repr

inductive SyncAction where
  | requestBlock (peerId : PeerId) (blockId : Hash256)
  | submitBlock (source : PeerId) (block : Block)
  | stalled (blockId : Hash256)
  deriving DecidableEq, Repr

inductive SyncError where
  | duplicateTarget (blockId : Hash256)
  | unexpectedBlock (peerId : PeerId) (blockId : Hash256)
  | bufferFull
  | detachedHeaders
  | nonContiguousHeaders
  | tooManyHeaders
  deriving DecidableEq, Repr

/-- An in-flight request is kept as the peer that owns it. -/
structure BlockScheduler where
  targets : List Hash256
  targetIndex : ExtTreeMap Hash256 ℕ
  nextSubmit : ℕ
  inFlight : ExtTreeMap Hash256 PeerId
  inFlightPerPeer : ExtTreeMap PeerId ℕ
  attempts : ExtTreeMap Hash256 ℕ
  buffered : ExtTreeMap Hash256 BufferedBlock
  stalled : ExtTreeSet Hash256

namespace BlockScheduler

/-- The positions of the targets, when no target stands twice. -/
def indexTargets : ℕ → List Hash256 → ExtTreeMap Hash256 ℕ →
    Except SyncError (ExtTreeMap Hash256 ℕ)
  | _, [], index => .ok index
  | position, blockId :: rest, index =>
    if blockId ∈ index then .error (.duplicateTarget blockId)
    else indexTargets (position + 1) rest (index.insert blockId position)

def new (targets : List Hash256) : Except SyncError BlockScheduler := do
  let targetIndex ← indexTargets 0 targets ∅
  pure { targets, targetIndex, nextSubmit := 0, inFlight := ∅, inFlightPerPeer := ∅,
         attempts := ∅, buffered := ∅, stalled := ∅ }

def inFlightForPeer (s : BlockScheduler) (peerId : PeerId) : ℕ :=
  (s.inFlightPerPeer[peerId]?).getD 0

def attemptsOf (s : BlockScheduler) (blockId : Hash256) : ℕ := (s.attempts[blockId]?).getD 0

/-- The order in which peers are preferred. -/
def preferred (a b : SyncPeer) : Prop :=
  (compareLex (compareOn fun p : SyncPeer => p.performance.timeoutCount)
    (compareLex (compareOn fun p => p.performance.averageResponseLatencyMs)
      (compareOn SyncPeer.peerId)) a b).isLE

instance : DecidableRel preferred := fun _ _ => inferInstanceAs (Decidable (_ = true))

def eligible (peers : List SyncPeer) : List SyncPeer :=
  (peers.filter fun peer => peer.blockRelay && peer.syncEligible).insertionSort preferred

/-- A target that is not asked for: it is on its way, here, given up or out of attempts. -/
def skips (s : BlockScheduler) (blockId : Hash256) : Prop :=
  blockId ∈ s.inFlight ∨ blockId ∈ s.buffered ∨ blockId ∈ s.stalled ∨
    MAX_BLOCK_ATTEMPTS ≤ s.attemptsOf blockId

instance (s : BlockScheduler) (blockId : Hash256) : Decidable (s.skips blockId) :=
  inferInstanceAs (Decidable (_ ∨ _))

def request (s : BlockScheduler) (peerId : PeerId) (blockId : Hash256) : BlockScheduler :=
  { s with
    inFlight := s.inFlight.insert blockId peerId
    inFlightPerPeer := s.inFlightPerPeer.insert peerId (s.inFlightForPeer peerId + 1)
    attempts := s.attempts.insert blockId (s.attemptsOf blockId + 1) }

/-- The loop over the targets that are still to be submitted. -/
def scheduleFrom (peers : List SyncPeer) :
    List Hash256 → BlockScheduler → BlockScheduler × List SyncAction
  | [], s => (s, [])
  | blockId :: rest, s =>
    if MAX_IN_FLIGHT_BLOCKS_GLOBAL ≤ s.inFlight.size then (s, [])
    else if s.skips blockId then scheduleFrom peers rest s
    else
      match peers.find? fun peer => s.inFlightForPeer peer.peerId < MAX_IN_FLIGHT_BLOCKS_PEER with
      | none => (s, [])
      | some peer =>
        let r := scheduleFrom peers rest (s.request peer.peerId blockId)
        (r.1, .requestBlock peer.peerId blockId :: r.2)

def schedule (s : BlockScheduler) (peers : List SyncPeer) : BlockScheduler × List SyncAction :=
  let peers := eligible peers
  if peers = [] then (s, []) else scheduleFrom peers (s.targets.drop s.nextSubmit) s

def release (s : BlockScheduler) (blockId : Hash256) (peerId : PeerId) : BlockScheduler :=
  { s with
    inFlight := s.inFlight.erase blockId
    inFlightPerPeer :=
      match s.inFlightPerPeer[peerId]? with
      | none => s.inFlightPerPeer
      | some count =>
        if count - 1 = 0 then s.inFlightPerPeer.erase peerId
        else s.inFlightPerPeer.insert peerId (count - 1) }

def onTimeout (s : BlockScheduler) (peerId : PeerId) (blockId : Hash256) :
    BlockScheduler × List SyncAction :=
  if s.inFlight[blockId]? = some peerId then
    let s := s.release blockId peerId
    if MAX_BLOCK_ATTEMPTS ≤ s.attemptsOf blockId ∧ blockId ∉ s.stalled then
      ({ s with stalled := s.stalled.insert blockId }, [.stalled blockId])
    else (s, [])
  else (s, [])

/-- Submits the buffered targets from the submission point on, up to the first that is missing. -/
def drain : List Hash256 → BlockScheduler → BlockScheduler × List SyncAction
  | [], s => (s, [])
  | expected :: rest, s =>
    match s.buffered[expected]? with
    | none => (s, [])
    | some buffered =>
      let r := drain rest { s with
        buffered := s.buffered.erase expected
        nextSubmit := s.nextSubmit + 1 }
      (r.1, .submitBlock buffered.source buffered.block :: r.2)

/-- A delivered body. The request is released before the body is looked at, so also the
refusals that follow leave the scheduler without it. -/
def onBlock [Crypto] (s : BlockScheduler) (peerId : PeerId) (block : Block) :
    BlockScheduler × Except SyncError (List SyncAction) :=
  let blockId := block.header.blockId
  if s.inFlight[blockId]? = some peerId then
    let s := s.release blockId peerId
    match s.targetIndex[blockId]? with
    | none => (s, .error (.unexpectedBlock peerId blockId))
    | some index =>
      if index < s.nextSubmit then (s, .error (.unexpectedBlock peerId blockId))
      else if MAX_BUFFERED_BLOCKS ≤ s.buffered.size then (s, .error .bufferFull)
      else
        let s := { s with buffered := s.buffered.insert blockId ⟨peerId, block⟩ }
        let r := drain (s.targets.drop s.nextSubmit) s
        (r.1, .ok r.2)
  else (s, .error (.unexpectedBlock peerId blockId))

def isComplete (s : BlockScheduler) : Bool := s.nextSubmit = s.targets.length

end BlockScheduler

/-- A call of the scheduler by the node. -/
inductive SyncCall where
  | schedule (peers : List SyncPeer)
  | onBlock (peerId : PeerId) (block : Block)
  | onTimeout (peerId : PeerId) (blockId : Hash256)

section Calls

variable [Crypto]

/-- The state after a call, and the actions it returned, none if it failed. -/
def BlockScheduler.call (s : BlockScheduler) : SyncCall → BlockScheduler × List SyncAction
  | .schedule peers => s.schedule peers
  | .onBlock peerId block => ((s.onBlock peerId block).1, (s.onBlock peerId block).2.toOption.getD [])
  | .onTimeout peerId blockId => s.onTimeout peerId blockId

/-- The state after a sequence of calls, and all actions returned on the way. -/
def BlockScheduler.run : BlockScheduler → List SyncCall → BlockScheduler × List SyncAction
  | s, [] => (s, [])
  | s, c :: calls =>
    let first := s.call c
    let rest := first.1.run calls
    (rest.1, first.2 ++ rest.2)

end Calls

end Oregon.Sync
