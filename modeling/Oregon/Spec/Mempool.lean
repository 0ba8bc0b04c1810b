import Oregon.Lib.Graph
import Oregon.Lib.Stateful
import Oregon.Spec.Utxo

/-! The memory pool: transactions that wait for a block, with the links between those that spend
each other's outputs, and who spends what. Links are followed in both directions, and
the entries have an order in which parents come first. A call can also end in a failed
`expect`, and a loop in not ending; both are kept apart from the errors that are
returned. -/

namespace Oregon.Pool

open Lib Std

structure ChainBase where
  tipId : Hash256
  tipHeight : ℕ
  deriving DecidableEq, Repr

/-- The limits of a pool, in the range of `usize`. -/
structure MempoolConfig where
  maxEntries : ℕ
  maxTotalBytes : ℕ
  maxAncestors : ℕ
  maxDescendants : ℕ
  maxEntries_lt : maxEntries < 2 ^ 64
  maxTotalBytes_lt : maxTotalBytes < 2 ^ 64
  deriving DecidableEq, Repr

structure MempoolEntry where
  transaction : Transaction
  txid : Hash256
  fee : ℕ
  encodedBytes : ℕ
  parents : ExtTreeSet Hash256
  children : ExtTreeSet Hash256
  deriving DecidableEq

structure AdmissionOutcome where
  txid : Hash256
  fee : ℕ
  encodedBytes : ℕ
  evicted : List Hash256
  deriving DecidableEq, Repr

structure ReconcileReport where
  removed : List Hash256
  retained : ℕ
  deriving DecidableEq, Repr

inductive MempoolError where
  | invalidConfig
  | heightOverflow
  | alreadyKnown (txid : Hash256)
  | staleChainContext
  | conflict (outpoint : OutPoint) (existingTxid : Hash256)
  | missingDependency (outpoint : OutPoint)
  | invalidParentOutput (outpoint : OutPoint)
  | tooManyAncestors
  | tooManyDescendants
  | capacityRejected
  | dependencyCycle
  | invariantViolation
  | structural (e : NormalTransactionError)
  | utxo (e : UtxoError)
  deriving DecidableEq, Repr

/-- How a call ends that returns no value. -/
inductive Halt where
  | error (e : MempoolError)
  | panic
  | divergence
  deriving DecidableEq, Repr

/-- An error that says that the pool is broken. -/
def violation : Halt := .error .invariantViolation

abbrev Entries := ExtTreeMap Hash256 MempoolEntry

structure Mempool where
  config : MempoolConfig
  base : ChainBase
  entries : Entries
  spenders : ExtTreeMap OutPoint Hash256
  totalBytes : ℕ
  deriving DecidableEq

def Mempool.new (base : ChainBase) (config : MempoolConfig) : Except MempoolError Mempool :=
  if config.maxEntries = 0 ∨ config.maxTotalBytes = 0 then .error .invalidConfig
  else .ok { config, base, entries := ∅, spenders := ∅, totalBytes := 0 }

section Graph

variable (entries : Entries)

/-- Both ends of every link know of it. -/
def checkLinks : Except Halt Unit :=
  entries.toList.forM fun (txid, entry) => do
    entry.parents.toList.forM fun parent => do
      let parentEntry ← orElse entries[parent]? violation
      ensure (txid ∈ parentEntry.children) violation
    entry.children.toList.forM fun child => do
      let childEntry ← orElse entries[child]? violation
      ensure (txid ∈ childEntry.parents) violation

def topologicalOrder : Except Halt (List Hash256) := do
  checkLinks entries
  let emitted ← Graph.order entries MempoolEntry.parents MempoolEntry.children violation .divergence
  ensure (emitted.length = entries.size) (.error .dependencyCycle)
  pure emitted

def ancestorClosure (directParents : ExtTreeSet Hash256) : Except Halt (ExtTreeSet Hash256) := do
  let closure ← Graph.close entries MempoolEntry.parents violation .divergence directParents
  let order ← topologicalOrder entries
  let emitted := (order.filter fun txid => txid ∈ closure).length
  ensure (emitted = closure.size) (.error .dependencyCycle)
  pure closure

def descendantClosure (root : Hash256) : Except Halt (ExtTreeSet Hash256) := do
  let rootEntry ← orElse entries[root]? violation
  let closure ← Graph.close entries MempoolEntry.children violation .divergence rootEntry.children
  ensure (root ∉ closure) (.error .dependencyCycle)
  pure closure

end Graph

/-- Rates are compared without division; ties go to the fee and then to the id. -/
def evictionCmp (left right : MempoolEntry) : Ordering :=
  let leftCross := mulU128 left.fee right.encodedBytes
  let rightCross := mulU128 right.fee left.encodedBytes
  (compare leftCross rightCross).then
    ((compare left.fee right.fee).then (compare left.txid right.txid))

end Oregon.Pool
