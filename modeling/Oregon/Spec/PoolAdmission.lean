import Oregon.Spec.Mempool

/-! Admission to the pool and reconciliation with the chain. A candidate is validated on its own
copy of the coins that it and its ancestors need; then entries of a lower rank make room
for it, with all that depends on them; then the plan is checked against the pool and
carried out. Reconciliation admits the entries again, in order, to an empty pool. -/

namespace Oregon.Pool

open Lib Std

structure PreparedCandidate where
  entry : MempoolEntry
  spendClaims : List OutPoint
  ancestors : ExtTreeSet Hash256
  deriving DecidableEq

structure AdmissionPlan where
  candidate : PreparedCandidate
  remove : ExtTreeSet Hash256
  deriving DecidableEq

section Prepare

/-- No claim is another's. -/
def checkConflicts (spenders : ExtTreeMap OutPoint Hash256) (spendClaims : List OutPoint) :
    Except Halt Unit :=
  spendClaims.forM fun outpoint =>
    match spenders[outpoint]? with
    | some existingTxid => throw (.error (.conflict outpoint existingTxid))
    | none => pure ()

/-- An output that is not on the chain is one of an entry. -/
def addParent (entries : Entries) (chainUtxos : UtxoState) (directParents : ExtTreeSet Hash256)
    (outpoint : OutPoint) : Except Halt (ExtTreeSet Hash256) :=
  if (chainUtxos.get outpoint).isSome then pure directParents
  else do
    let parent ← orElse entries[outpoint.txid]? (.error (.missingDependency outpoint))
    ensure (outpoint.index.toNat < parent.transaction.outputs.length)
      (.error (.invalidParentOutput outpoint))
    pure (directParents.insert parent.txid)

def checkDescendants (pool : Mempool) (ancestors : ExtTreeSet Hash256) : Except Halt Unit :=
  ancestors.toList.forM fun ancestor => do
    let descendants ← descendantClosure pool.entries ancestor
    let withCandidate ← orElse (checkedAdd descendants.size 1) violation
    ensure (withCandidate ≤ pool.config.maxDescendants) (.error .tooManyDescendants)

/-- The coins that are copied, each once. -/
structure Seeds where
  seeded : ExtTreeSet OutPoint
  narrowEntries : List (OutPoint × UtxoEntry)

def Seeds.add (seeds : Seeds) (outpoint : OutPoint) (entry : UtxoEntry) : Seeds :=
  if outpoint ∈ seeds.seeded then seeds
  else ⟨seeds.seeded.insert outpoint, seeds.narrowEntries ++ [(outpoint, entry)]⟩

def seedChainInputs (chainUtxos : UtxoState) (seeds : Seeds) (transaction : Transaction) : Seeds :=
  transaction.inputs.foldl (fun seeds input =>
    match chainUtxos.get input.outpoint with
    | some entry => seeds.add input.outpoint entry
    | none => seeds) seeds

/-- The outputs on the chain of some transactions. -/
def seedOutputs (chainUtxos : UtxoState) (txids : ExtTreeSet Hash256) (seeds : Seeds) : Seeds :=
  chainUtxos.entries.toList.foldl (fun seeds (outpoint, entry) =>
    if outpoint.txid ∈ txids then seeds.add outpoint entry else seeds) seeds

variable [Crypto]

/-- An ancestor has the fee that it was admitted with. -/
def replayAncestor (entries : Entries) (spendHeight : ℕ) (verifier : SpendVerifier)
    (validationState : UtxoState) (ancestor : Hash256) : Except Halt UtxoState := do
  let entry ← orElse entries[ancestor]? violation
  let (validationState, replayedFee) ←
    (validationState.applyNormalTransaction entry.transaction spendHeight verifier).mapError
      fun e => .error (.utxo e)
  ensure (replayedFee = entry.fee) violation
  pure validationState

/-- The fee of a transaction after its ancestors. -/
def validateCandidate (entries : Entries) (ancestors : ExtTreeSet Hash256)
    (replayOrder : List Hash256) (transaction : Transaction) (spendHeight : ℕ)
    (chainUtxos : UtxoState) (verifier : SpendVerifier) : Except Halt ℕ := do
  let seeds ← replayOrder.foldlM (fun seeds ancestor => do
    let entry ← orElse entries[ancestor]? violation
    pure (seedChainInputs chainUtxos seeds entry.transaction)) ⟨∅, []⟩
  let seeds := seedChainInputs chainUtxos seeds transaction
  let seeds := seedOutputs chainUtxos (ancestors.insert transaction.txid) seeds
  let validationState ← (UtxoState.tryFromEntries seeds.narrowEntries).mapError
    fun e => .error (.utxo e)
  let validationState ← replayOrder.foldlM (replayAncestor entries spendHeight verifier)
    validationState
  let (_, fee) ← (validationState.applyNormalTransaction transaction spendHeight verifier).mapError
    fun e => .error (.utxo e)
  pure fee

def prepareAdmission (pool : Mempool) (transaction : Transaction) (chainBase : ChainBase)
    (chainUtxos : UtxoState) (verifier : SpendVerifier) : Except Halt AdmissionPlan := do
  ensure (chainBase = pool.base) (.error .staleChainContext)
  let spendHeight ← orElse (checkedAdd chainBase.tipHeight 1) (.error .heightOverflow)
  let encodedBytes := transaction.encode.length
  let txid := transaction.txid
  (validateNormalTransactionSkeleton transaction).mapError fun e => .error (.structural e)
  ensure (txid ∉ pool.entries) (.error (.alreadyKnown txid))
  let spendClaims := transaction.inputs.map TxInput.outpoint
  checkConflicts pool.spenders spendClaims
  let directParents ← spendClaims.foldlM (addParent pool.entries chainUtxos) ∅
  let ancestors ← ancestorClosure pool.entries directParents
  ensure (ancestors.size ≤ pool.config.maxAncestors) (.error .tooManyAncestors)
  checkDescendants pool ancestors
  let fullOrder ← topologicalOrder pool.entries
  let replayOrder := fullOrder.filter fun ancestor => ancestor ∈ ancestors
  ensure (replayOrder.length = ancestors.size) violation
  let fee ← validateCandidate pool.entries ancestors replayOrder transaction spendHeight chainUtxos
    verifier
  pure { candidate := { entry := { transaction, txid, fee, encodedBytes, parents := directParents,
                                   children := ∅ },
                        spendClaims, ancestors },
         remove := ∅ }

end Prepare

def removedBytes (pool : Mempool) (remove : ExtTreeSet Hash256) : Except Halt ℕ :=
  remove.toList.foldlM (fun removed txid => do
    let entry ← orElse pool.entries[txid]? violation
    orElse (checkedAdd removed entry.encodedBytes) violation) 0

/-- The entry of the lowest rank below the candidate among those that stay. -/
def selectVictim (pool : Mempool) (plan : AdmissionPlan) : Option Hash256 × MempoolEntry :=
  pool.entries.toList.foldl (fun selected (txid, entry) =>
    if txid ∈ plan.remove then selected
    else if evictionCmp entry selected.2 = .lt then (some txid, entry)
    else selected) (none, plan.candidate.entry)

/-- The pool with the candidate and without what is removed: its bytes, if it is within the
limits; or else more to remove. -/
def capacityRound (pool : Mempool) (plan : AdmissionPlan) :
    Except Halt (AdmissionPlan ⊕ AdmissionPlan × ℕ) := do
  let removed ← removedBytes pool plan.remove
  let virtualEntries ← orElse ((checkedAdd pool.entries.size 1).bind fun count =>
    checkedSub count plan.remove.size) violation
  let virtualBytes ← orElse ((checkedAdd pool.totalBytes plan.candidate.entry.encodedBytes).bind
    fun bytes => checkedSub bytes removed) violation
  if virtualEntries ≤ pool.config.maxEntries ∧ virtualBytes ≤ pool.config.maxTotalBytes then
    pure (.inr (plan, virtualBytes))
  else do
    let root ← orElse (selectVictim pool plan).1 (.error .capacityRejected)
    ensure (root ∉ plan.candidate.ancestors) (.error .capacityRejected)
    let descendants ← descendantClosure pool.entries root
    ensure (¬ descendants.toList.any (· ∈ plan.candidate.ancestors)) (.error .capacityRejected)
    ensure (root ∉ plan.remove) violation
    pure (.inl { plan with remove := (plan.remove.insert root).insertMany descendants.toList })

/-- The plan with what it removes, and the bytes of the pool after it. -/
def planCapacity (pool : Mempool) (plan : AdmissionPlan) : Except Halt (AdmissionPlan × ℕ) :=
  loop (capacityRound pool) .divergence (pool.entries.size + 1) plan

def preflightAdmissionPlan (pool : Mempool) (plan : AdmissionPlan) (newTotalBytes : ℕ) :
    Except Halt Unit := do
  let _ ← topologicalOrder pool.entries
  ensure (¬ plan.remove.toList.any (· ∈ plan.candidate.ancestors)) violation
  plan.candidate.entry.parents.toList.forM fun parent =>
    ensure (¬ (parent ∉ plan.candidate.ancestors ∨ parent ∈ plan.remove ∨ parent ∉ pool.entries))
      violation
  plan.candidate.ancestors.toList.forM fun ancestor =>
    ensure (¬ (ancestor ∈ plan.remove ∨ ancestor ∉ pool.entries)) violation
  plan.candidate.spendClaims.forM fun outpoint => ensure (outpoint ∉ pool.spenders) violation
  plan.remove.toList.forM fun txid => do
    let entry ← orElse pool.entries[txid]? violation
    entry.transaction.inputs.forM fun input =>
      ensure (pool.spenders[input.outpoint]? = some txid) violation
    ensure (¬ entry.children.toList.any (· ∉ plan.remove)) violation
  let removed ← removedBytes pool plan.remove
  let expectedBytes ← orElse ((checkedSub pool.totalBytes removed).bind fun bytes =>
    checkedAdd bytes plan.candidate.entry.encodedBytes) violation
  ensure (¬ (expectedBytes ≠ newTotalBytes ∨ pool.config.maxTotalBytes < expectedBytes)) violation
  let expectedEntries ← orElse ((checkedSub pool.entries.size plan.remove.size).bind fun count =>
    checkedAdd count 1) violation
  ensure (expectedEntries ≤ pool.config.maxEntries) violation

section Commit

/-- An entry that is removed: its claims, and the parents that stay. -/
def removal (pool : Mempool) (remove : ExtTreeSet Hash256) (txid : Hash256) :
    Except Halt (Hash256 × List OutPoint × List Hash256) := do
  let entry ← orElse pool.entries[txid]? .panic
  pure (txid, entry.transaction.inputs.map TxInput.outpoint,
    entry.parents.toList.filter fun parent => parent ∉ remove)

/-- Changes the children of an entry that is expected to be there. -/
def changeChildren (change : ExtTreeSet Hash256 → ExtTreeSet Hash256) (entries : Entries)
    (parent : Hash256) : Except Halt Entries := do
  let entry ← orElse entries[parent]? .panic
  pure (entries.insert parent { entry with children := change entry.children })

def commitRemoval (pool : Mempool) (r : Hash256 × List OutPoint × List Hash256) :
    Except Halt Mempool := do
  let entries ← r.2.2.foldlM (changeChildren fun children => children.erase r.1) pool.entries
  pure { pool with entries := entries.erase r.1
                   spenders := r.2.1.foldl (·.erase ·) pool.spenders }

def commitAdmission (pool : Mempool) (plan : AdmissionPlan) (newTotalBytes : ℕ) :
    Except Halt (AdmissionOutcome × Mempool) := do
  let entry := plan.candidate.entry
  let evicted := plan.remove.toList
  let removals ← evicted.mapM (removal pool plan.remove)
  let pool ← removals.foldlM commitRemoval pool
  let entries ← entry.parents.toList.foldlM
    (changeChildren fun children => children.insert entry.txid) pool.entries
  pure ({ txid := entry.txid, fee := entry.fee, encodedBytes := entry.encodedBytes, evicted },
    { pool with entries := entries.insert entry.txid entry
                spenders := plan.candidate.spendClaims.foldl (fun spenders outpoint =>
                  spenders.insert outpoint entry.txid) pool.spenders
                totalBytes := newTotalBytes })

end Commit

section Calls

variable [Crypto]

def admitTx (transaction : Transaction) (chainBase : ChainBase) (chainUtxos : UtxoState)
    (verifier : SpendVerifier) : Stateful Mempool Halt AdmissionOutcome := do
  let pool ← get
  let plan ← check (prepareAdmission pool transaction chainBase chainUtxos verifier)
  let planned ← check (planCapacity pool plan)
  check (preflightAdmissionPlan pool planned.1 planned.2)
  let committed ← check (commitAdmission pool planned.1 planned.2)
  set committed.2
  pure committed.1

/-- What a rebuild passes over. -/
def isFilterableRebuildError : MempoolError → Bool
  | .missingDependency _ | .invalidParentOutput _ | .tooManyAncestors | .tooManyDescendants
  | .capacityRejected | .structural _ | .utxo _ => true
  | _ => false

def rebuildStep (newBase : ChainBase) (chainUtxos : UtxoState) (verifier : SpendVerifier)
    (rebuilt : Mempool) (source : Hash256 × Transaction) : Except Halt Mempool := do
  ensure (source.2.txid = source.1) violation
  match perform (admitTx source.2 newBase chainUtxos verifier) rebuilt with
  | (.ok _, rebuilt) => pure rebuilt
  | (.error (.error e), rebuilt) =>
    if isFilterableRebuildError e then pure rebuilt else throw (.error e)
  | (.error halt, _) => throw halt

def rebuildAgainstChain (config : MempoolConfig) (orderedSource : List (Hash256 × Transaction))
    (newBase : ChainBase) (chainUtxos : UtxoState) (verifier : SpendVerifier) :
    Except Halt Mempool := do
  let rebuilt ← (Mempool.new newBase config).mapError .error
  orderedSource.foldlM (rebuildStep newBase chainUtxos verifier) rebuilt

def sourceOf (entries : Entries) (txid : Hash256) : Except Halt (Hash256 × Transaction) := do
  let entry ← orElse entries[txid]? violation
  pure (txid, entry.transaction)

/-- The pool is replaced by what was rebuilt. -/
def replaceWith (rebuilt : Mempool) : Stateful Mempool Halt ReconcileReport := do
  let pool ← get
  set rebuilt
  pure { removed := pool.entries.keys.filter fun txid => txid ∉ rebuilt.entries
         retained := rebuilt.entries.size }

/-- Entries that spend what a transaction of the block spends, unless they are in it. -/
def excludeConflicts (pool : Mempool) (confirmed excluded : ExtTreeSet Hash256)
    (transaction : Transaction) : Except Halt (ExtTreeSet Hash256) :=
  transaction.inputs.foldlM (fun excluded input =>
    match pool.spenders[input.outpoint]? with
    | none => pure excluded
    | some conflictingTxid =>
      if conflictingTxid ∈ confirmed then pure excluded
      else do
        let descendants ← descendantClosure pool.entries conflictingTxid
        pure ((excluded.insert conflictingTxid).insertMany descendants.toList)) excluded

def reconcileActiveBlock (block : Block) (newBase : ChainBase) (chainUtxos : UtxoState)
    (verifier : SpendVerifier) : Stateful Mempool Halt ReconcileReport := do
  let pool ← get
  let order ← check (topologicalOrder pool.entries)
  let confirmed := ExtTreeSet.ofList (block.transactions.map Transaction.txid)
  let excluded ← check (block.transactions.foldlM (excludeConflicts pool confirmed) ∅)
  let source ← check ((order.filter fun txid => ¬ (txid ∈ confirmed ∨ txid ∈ excluded)).mapM
    (sourceOf pool.entries))
  let rebuilt ← check (rebuildAgainstChain pool.config source newBase chainUtxos verifier)
  replaceWith rebuilt

def reconcileReorg (newBase : ChainBase) (chainUtxos : UtxoState) (verifier : SpendVerifier) :
    Stateful Mempool Halt ReconcileReport := do
  let pool ← get
  let order ← check (topologicalOrder pool.entries)
  let source ← check (order.mapM (sourceOf pool.entries))
  let rebuilt ← check (rebuildAgainstChain pool.config source newBase chainUtxos verifier)
  replaceWith rebuilt

end Calls

end Oregon.Pool
