import Oregon.Spec.Protocol
import Mathlib.Data.List.MinMax
import Mathlib.Data.List.Sort
import Mathlib.Data.Prod.Lex
import Std.Data.ExtTreeMap

/-! The requests that are under way to one peer. A request is answered, or it expires and is
remembered for a while, so that a late answer is not held against the peer. -/

namespace Oregon.Peer

open Protocol Std

/-- Points in time and durations are numbers of nanoseconds. -/
abbrev Instant := ℕ

def MILLISECOND : ℕ := 1000000
def SECOND : ℕ := 1000 * MILLISECOND

def RESPONSE_START_TIMEOUT : ℕ := 20 * SECOND
def EXPIRED_REQUEST_GRACE : ℕ := 30 * SECOND
def MAX_RECENTLY_EXPIRED_REQUESTS_PER_PEER : ℕ := 128

inductive RequestKey where
  | headers
  | object (item : InventoryItem)
  deriving DecidableEq, Repr

/-- A number for each key, in whose order the outstanding requests are listed. -/
def RequestKey.code : RequestKey → ℕ
  | .headers => 0
  | .object ⟨.transaction, hash⟩ => 2 * BitVec.toNat hash + 1
  | .object ⟨.block, hash⟩ => 2 * BitVec.toNat hash + 2

theorem RequestKey.code_injective {a b : RequestKey} (h : a.code = b.code) : a = b := by
  rcases a with _ | ⟨_ | _, x⟩ <;> rcases b with _ | ⟨_ | _, y⟩ <;> simp only [code] at h
  any_goals omega
  · rfl
  all_goals rw [BitVec.eq_of_toNat_eq (x := x) (y := y) (by omega)]

instance : Ord RequestKey := ⟨compareOn RequestKey.code⟩

instance : TransOrd RequestKey := inferInstanceAs (TransCmp (compareOn RequestKey.code))

instance : LawfulEqOrd RequestKey where
  eq_of_compare h := RequestKey.code_injective (LawfulEqOrd.eq_of_compare h)

inductive RequestError where
  | alreadyOutstanding (key : RequestKey)
  deriving DecidableEq, Repr

inductive ResponseDisposition where
  | matched (key : RequestKey)
  | graceDrop (key : RequestKey)
  | unsolicited (key : RequestKey)
  deriving DecidableEq, Repr

abbrev PeerId := ℕ

structure PerformanceSnapshot where
  successCount : ℕ
  timeoutCount : ℕ
  averageResponseLatencyMs : ℕ
  deriving DecidableEq, Repr

structure OutstandingRequest where
  startedAt : Instant
  generation : ℕ
  deriving DecidableEq, Repr

structure GraceEntry where
  key : RequestKey
  expiresAt : Instant
  generation : ℕ
  deriving DecidableEq, Repr

structure RequestRegistry where
  outstanding : ExtTreeMap RequestKey OutstandingRequest
  grace : List GraceEntry
  nextGeneration : ℕ
  performance : PerformanceSnapshot
  totalResponseLatencyMs : ℕ

def U64_MAX : ℕ := 2 ^ 64 - 1
def U128_MAX : ℕ := 2 ^ 128 - 1

/-- Addition that stays at the greatest number of its type. -/
def saturatingAdd (max a b : ℕ) : ℕ := min (a + b) max

/-- Which of two remembered requests goes first. -/
def GraceEntry.rank (e : GraceEntry) : ℕ ×ₗ ℕ := toLex (e.expiresAt, e.generation)

/-- An outstanding request whose time is over, as `expire_at` collects them. -/
structure Overdue where
  key : RequestKey
  deadline : Instant
  generation : ℕ
  deriving DecidableEq, Repr

def Overdue.rank (e : Overdue) : ℕ ×ₗ ℕ := toLex (e.deadline, e.generation)

namespace RequestRegistry

def default : RequestRegistry where
  outstanding := ∅
  grace := []
  nextGeneration := 0
  performance := ⟨0, 0, 0⟩
  totalResponseLatencyMs := 0

def expectAt (s : RequestRegistry) (key : RequestKey) (now : Instant) :
    RequestRegistry × Except RequestError Unit :=
  if key ∈ s.outstanding then (s, .error (.alreadyOutstanding key))
  else
    ({ s with
      grace := s.grace.filter fun entry => entry.key ≠ key
      nextGeneration := (s.nextGeneration + 1) % 2 ^ 64
      outstanding := s.outstanding.insert key ⟨now, s.nextGeneration⟩ }, .ok ())

def recordSuccess (s : RequestRegistry) (latency : ℕ) : RequestRegistry :=
  let successCount := saturatingAdd U64_MAX s.performance.successCount 1
  let total := saturatingAdd U128_MAX s.totalResponseLatencyMs (latency / MILLISECOND)
  { s with
    performance := { s.performance with
      successCount
      averageResponseLatencyMs := min (total / successCount) U64_MAX }
    totalResponseLatencyMs := total }

def pruneGrace (s : RequestRegistry) (now : Instant) : RequestRegistry :=
  { s with grace := s.grace.filter fun entry => now < entry.expiresAt }

/-- A full grace list loses its earliest entry. -/
def makeRoom (grace : List GraceEntry) : List GraceEntry :=
  if grace.length = MAX_RECENTLY_EXPIRED_REQUESTS_PER_PEER then
    match grace.argmin GraceEntry.rank with
    | some earliest => grace.erase earliest
    -- The source expects an entry here: the list is not empty.
    | none => grace
  else grace

def insertGrace (s : RequestRegistry) (entry : GraceEntry) : RequestRegistry :=
  let grace := s.grace.filter fun existing => existing.key ≠ entry.key
  { s with grace := makeRoom grace ++ [entry] }

def classifyKeyAt (s : RequestRegistry) (key : RequestKey) (now : Instant) :
    RequestRegistry × ResponseDisposition :=
  let s := s.pruneGrace now
  match s.outstanding[key]? with
  | some request =>
    (({ s with outstanding := s.outstanding.erase key }).recordSuccess (now - request.startedAt),
      .matched key)
  | none =>
    match s.grace.findIdx? fun entry => entry.key = key with
    | some index => ({ s with grace := s.grace.eraseIdx index }, .graceDrop key)
    | none => (s, .unsolicited key)

/-- The requests whose deadline has passed. -/
def overdue (s : RequestRegistry) (now : Instant) : List Overdue :=
  s.outstanding.toList.filterMap fun e =>
    let deadline := e.2.startedAt + RESPONSE_START_TIMEOUT
    if deadline ≤ now then some ⟨e.1, deadline, e.2.generation⟩ else none

/-- The body of the loop over the overdue requests. -/
def expireRequest (now : Instant) (s : RequestRegistry) (e : Overdue) : RequestRegistry :=
  let s := { s with
    outstanding := s.outstanding.erase e.key
    performance := { s.performance with
      timeoutCount := saturatingAdd U64_MAX s.performance.timeoutCount 1 } }
  let graceExpires := e.deadline + EXPIRED_REQUEST_GRACE
  if now < graceExpires then s.insertGrace ⟨e.key, graceExpires, e.generation⟩ else s

def expireAt (s : RequestRegistry) (now : Instant) : RequestRegistry × List RequestKey :=
  let s := s.pruneGrace now
  let expired := (s.overdue now).insertionSort fun a b => a.rank ≤ b.rank
  (expired.foldl (expireRequest now) s, expired.map Overdue.key)

end RequestRegistry

/-- A call of the registry by the session. -/
inductive RequestCall where
  | expectAt (key : RequestKey) (now : Instant)
  | classifyKeyAt (key : RequestKey) (now : Instant)
  | expireAt (now : Instant)
  deriving DecidableEq, Repr

/-- What a call of the registry returns. -/
inductive RequestReply where
  | expected (result : Except RequestError Unit)
  | classified (disposition : ResponseDisposition)
  | expired (keys : List RequestKey)
  deriving DecidableEq, Repr

def RequestCall.now : RequestCall → Instant
  | .expectAt _ now | .classifyKeyAt _ now | .expireAt now => now

def RequestRegistry.call (s : RequestRegistry) : RequestCall → RequestRegistry × RequestReply
  | .expectAt key now => ((s.expectAt key now).1, .expected (s.expectAt key now).2)
  | .classifyKeyAt key now => ((s.classifyKeyAt key now).1, .classified (s.classifyKeyAt key now).2)
  | .expireAt now => ((s.expireAt now).1, .expired (s.expireAt now).2)

end Oregon.Peer
