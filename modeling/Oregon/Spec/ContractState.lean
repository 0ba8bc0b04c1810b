import Oregon.Spec.Encoding

/-! The sparse Merkle state of a commitment domain: how keys, values and nodes are
hashed, how nodes and values are loaded from a source, reads, and write sets. Nodes are
addressed by their hash; a subtree without leaves is not stored. -/

namespace Oregon.ContractState

open Lib Std

inductive CommitmentDomainId where
  | nativeUtxo
  | evm
  | wasm
  | executionAccounting
  | executionReceipts
  | asyncOutbox
  | asyncConsumed
  | feeState
  deriving DecidableEq, Repr

def CommitmentDomainId.toU16 : CommitmentDomainId → ℕ
  | nativeUtxo => 0x0001
  | evm => 0x0010
  | wasm => 0x0011
  | executionAccounting => 0x0020
  | executionReceipts => 0x0030
  | asyncOutbox => 0x0040
  | asyncConsumed => 0x0041
  | feeState => 0x0050

inductive StateError where
  | keyTooLarge (length : ℕ)
  | valueTooLarge (length : ℕ)
  | depthOutOfRange (depth : ℕ)
  | nonCanonicalEmptyBranch (depth : ℕ)
  | missingNode (hash : Hash256)
  | nodeHashMismatch (hash : Hash256)
  | nodeDepthMismatch (expected actual : ℕ)
  | unexpectedLeaf
  | unexpectedBranch
  | leafPathMismatch (expected actual : Hash256)
  | missingValue (hash : Hash256)
  | valueHashMismatch (hash : Hash256)
  | duplicatePath (path : Hash256)
  | writeSetTooLarge (length : ℕ)
  | proofTooLarge (length : ℕ)
  | malformedProof
  | redundantDefaultSibling (depth : ℕ)
  | invalidProof
  | domainMismatch
  deriving DecidableEq, Repr

/-- Irreducible, so that no tree of this height is ever unfolded. -/
@[irreducible] def SMT_DEPTH : ℕ := 256

def MAX_STATE_KEY_BYTES : ℕ := 1024
def MAX_STATE_VALUE_BYTES : ℕ := 1048576
def MAX_STATE_WRITE_SET_ENTRIES : ℕ := 65536

def KEY_DOMAIN : Bytes := ascii "OREGON/STATE/SMT/KEY/V1\x00"
def VALUE_DOMAIN : Bytes := ascii "OREGON/STATE/SMT/VALUE/V1\x00"
def EMPTY_DOMAIN : Bytes := ascii "OREGON/STATE/SMT/EMPTY/V1\x00"
def LEAF_DOMAIN : Bytes := ascii "OREGON/STATE/SMT/LEAF/V1\x00"
def NODE_DOMAIN : Bytes := ascii "OREGON/STATE/SMT/NODE/V1\x00"

def domainPrefix (domain : CommitmentDomainId) : Bytes := leBytes 2 domain.toU16

/-- The bit `0x80 >> (depth % 8)` of byte `depth / 8`: with the bytes read as one
big-endian number, the bits from the most significant down. -/
def pathBitUnchecked (pathKey : Hash256) (depth : ℕ) : Bool := pathKey.getMsbD depth

def pathBit (pathKey : Hash256) (depth : ℕ) : Except StateError Bool := do
  ensure (depth < SMT_DEPTH) (.depthOutOfRange depth)
  pure (pathBitUnchecked pathKey depth)

inductive StateNode where
  | leaf (pathKey valueHash : Hash256)
  | branch (depth : ℕ) (left right : Hash256)
  deriving DecidableEq, Repr

/-- Where nodes and values come from; a source may fail. -/
structure StateSource where
  getNode : Hash256 → Except StateError (Option StateNode)
  getValue : Hash256 → Except StateError (Option Bytes)

structure DomainSnapshot where
  domain : CommitmentDomainId
  root : Hash256
  deriving DecidableEq, Repr

/-- A put carries a value, a deletion none. -/
structure StateWrite where
  key : Bytes
  value : Option Bytes
  deriving DecidableEq, Repr

inductive PreparedValue where
  | put (bytes : Bytes) (hash : Hash256)
  | delete
  deriving DecidableEq, Repr

structure PreparedWrite where
  path : Hash256
  value : PreparedValue
  deriving DecidableEq, Repr

/-- The first path that two neighbours share. -/
def findDuplicate : List PreparedWrite → Option Hash256
  | a :: b :: rest => if a.path = b.path then some a.path else findDuplicate (b :: rest)
  | _ => none

theorem pairwise_of_findDuplicate {l : List PreparedWrite}
    (hsorted : l.Pairwise fun a b => a.path ≤ b.path) (h : findDuplicate l = none) :
    l.Pairwise fun a b => a.path < b.path := by
  induction l with
  | nil => exact .nil
  | cons a l ih =>
    obtain ⟨hle, hrest⟩ := List.pairwise_cons.mp hsorted
    cases l with
    | nil => exact List.pairwise_singleton _ a
    | cons b l =>
      rw [findDuplicate] at h
      split_ifs at h with hne
      refine List.pairwise_cons.mpr ⟨fun c hc => ?_, ih hrest h⟩
      have hab : a.path < b.path := lt_of_le_of_ne (hle b (List.mem_cons_self ..)) hne
      rcases List.mem_cons.mp hc with rfl | hc
      · exact hab
      · exact lt_of_lt_of_le hab ((List.pairwise_cons.mp hrest).1 c hc)

theorem pairwise_sorted (prepared : List PreparedWrite) :
    (prepared.insertionSort fun a b => a.path ≤ b.path).Pairwise fun a b => a.path ≤ b.path := by
  have : Std.Total fun a b : PreparedWrite => a.path ≤ b.path := ⟨fun _ _ => BitVec.le_total _ _⟩
  have : IsTrans PreparedWrite fun a b => a.path ≤ b.path := ⟨fun _ _ _ => le_trans⟩
  exact List.pairwise_insertionSort _ _

/-- Prepared writes in the order of their paths, at most one for each path. -/
structure StateWriteSet where
  domain : CommitmentDomainId
  writes : List PreparedWrite
  sorted : writes.Pairwise fun a b => a.path < b.path
  deriving DecidableEq, Repr

structure StateTransition where
  domain : CommitmentDomainId
  oldRoot : Hash256
  newRoot : Hash256
  nodes : ExtTreeMap Hash256 StateNode
  values : ExtTreeMap Hash256 Bytes

/-- The nodes and values collected while a write set is applied. -/
structure TransitionBuilder where
  nodes : ExtTreeMap Hash256 StateNode
  values : ExtTreeMap Hash256 Bytes

section

variable [Crypto]

def pathKey (domain : CommitmentDomainId) (key : Bytes) : Except StateError Hash256 := do
  ensure (key.length ≤ MAX_STATE_KEY_BYTES) (.keyTooLarge key.length)
  pure (domainHash KEY_DOMAIN (domainPrefix domain ++ key))

def valueHash (domain : CommitmentDomainId) (value : Bytes) : Except StateError Hash256 := do
  ensure (value.length ≤ MAX_STATE_VALUE_BYTES) (.valueTooLarge value.length)
  pure (domainHash VALUE_DOMAIN (domainPrefix domain ++ value))

def leafHash (domain : CommitmentDomainId) (pathKey valueHash : Hash256) : Hash256 :=
  domainHash LEAF_DOMAIN
    (domainPrefix domain ++ Hash256.asBytes pathKey ++ Hash256.asBytes valueHash)

def branchHashUnchecked (domain : CommitmentDomainId) (depth : ℕ) (left right : Hash256) : Hash256 :=
  domainHash NODE_DOMAIN
    (domainPrefix domain ++ leBytes 2 depth ++ Hash256.asBytes left ++ Hash256.asBytes right)

def branchHash (domain : CommitmentDomainId) (depth : ℕ) (left right : Hash256) :
    Except StateError Hash256 := do
  ensure (depth < SMT_DEPTH) (.depthOutOfRange depth)
  pure (branchHashUnchecked domain depth left right)

/-- The hash of an empty subtree `height` levels above the leaves. -/
def emptyHashAbove (domain : CommitmentDomainId) : ℕ → Hash256
  | 0 => domainHash EMPTY_DOMAIN (domainPrefix domain)
  | height + 1 =>
    branchHashUnchecked domain (SMT_DEPTH - (height + 1)) (emptyHashAbove domain height)
      (emptyHashAbove domain height)

/-- The entry of the table for `depth`; the table ends at the leaves. -/
def emptyHashes (domain : CommitmentDomainId) (depth : ℕ) : Hash256 :=
  emptyHashAbove domain (SMT_DEPTH - depth)

def StateNode.hash (domain : CommitmentDomainId) : StateNode → Except StateError Hash256
  | leaf pathKey valueHash => pure (leafHash domain pathKey valueHash)
  | branch depth left right => do
    ensure (depth < 256) (.depthOutOfRange depth)
    ensure (¬ (left = emptyHashes domain (depth + 1) ∧ right = emptyHashes domain (depth + 1)))
      (.nonCanonicalEmptyBranch depth)
    branchHash domain depth left right

def loadCheckedNode (source : StateSource) (domain : CommitmentDomainId) (requestedHash : Hash256)
    (depth : ℕ) : Except StateError StateNode := do
  let found ← source.getNode requestedHash
  let node ← orElse found (.missingNode requestedHash)
  let hash ← node.hash domain
  ensure (hash = requestedHash) (.nodeHashMismatch requestedHash)
  match node with
  | .branch actual _ _ =>
    if depth < SMT_DEPTH then do
      ensure (actual = depth) (.nodeDepthMismatch depth actual)
      pure node
    else throw .unexpectedBranch
  | .leaf _ _ => if depth < SMT_DEPTH then throw .unexpectedLeaf else pure node

def loadCheckedValue (source : StateSource) (domain : CommitmentDomainId)
    (committedValueHash : Hash256) : Except StateError Bytes := do
  let found ← source.getValue committedValueHash
  let value ← orElse found (.missingValue committedValueHash)
  let hash ← valueHash domain value
  ensure (hash = committedValueHash) (.valueHashMismatch committedValueHash)
  pure value

/-- The children of the branch `hash` at `depth`. -/
def loadBranch (source : StateSource) (domain : CommitmentDomainId) (hash : Hash256) (depth : ℕ) :
    Except StateError (Hash256 × Hash256) := do
  let node ← loadCheckedNode source domain hash depth
  match node with
  | .branch _ left right => pure (left, right)
  | .leaf _ _ => throw .unexpectedLeaf

/-- The value hash of the leaf `hash`, which has to be the leaf of `path`. -/
def loadLeaf (source : StateSource) (domain : CommitmentDomainId) (hash path : Hash256) :
    Except StateError Hash256 := do
  let node ← loadCheckedNode source domain hash SMT_DEPTH
  match node with
  | .leaf actualPath committedValueHash => do
    ensure (actualPath = path) (.leafPathMismatch path actualPath)
    pure committedValueHash
  | .branch _ _ _ => throw .unexpectedBranch

/-- What is stored below `current` at leaf depth. -/
def readLeaf (source : StateSource) (domain : CommitmentDomainId) (path current : Hash256) :
    Except StateError (Option Bytes) :=
  if current = emptyHashes domain SMT_DEPTH then pure none
  else do
    let committedValueHash ← loadLeaf source domain current path
    let value ← loadCheckedValue source domain committedValueHash
    pure (some value)

/-- The walk down `levels` levels from `current` at `depth`. -/
def readFrom (source : StateSource) (domain : CommitmentDomainId) (path : Hash256) :
    ℕ → ℕ → Hash256 → Except StateError (Option Bytes)
  | 0, _, current => readLeaf source domain path current
  | levels + 1, depth, current =>
    if current = emptyHashes domain depth then pure none
    else do
      let (left, right) ← loadBranch source domain current depth
      let goesRight ← pathBit path depth
      readFrom source domain path levels (depth + 1) (if goesRight then right else left)

def readValue (source : StateSource) (snapshot : DomainSnapshot) (key : Bytes) :
    Except StateError (Option Bytes) := do
  let path ← pathKey snapshot.domain key
  readFrom source snapshot.domain path SMT_DEPTH 0 snapshot.root

def prepareWrite (domain : CommitmentDomainId) (write : StateWrite) :
    Except StateError PreparedWrite := do
  let path ← pathKey domain write.key
  let value ← match write.value with
    | some bytes => do
      let hash ← valueHash domain bytes
      pure (PreparedValue.put bytes hash)
    | none => pure PreparedValue.delete
  pure { path, value }

def StateWriteSet.new (domain : CommitmentDomainId) (writes : List StateWrite) :
    Except StateError StateWriteSet := do
  ensure (writes.length ≤ MAX_STATE_WRITE_SET_ENTRIES) (.writeSetTooLarge writes.length)
  let prepared ← writes.mapM (prepareWrite domain)
  let sorted := prepared.insertionSort fun a b => a.path ≤ b.path
  match h : findDuplicate sorted with
  | some path => throw (.duplicatePath path)
  | none =>
    pure { domain, writes := sorted
           sorted := pairwise_of_findDuplicate (pairwise_sorted prepared) h }

def recordValue (source : StateSource) (domain : CommitmentDomainId) (hash : Hash256)
    (value : Bytes) (b : TransitionBuilder) : Except StateError TransitionBuilder := do
  let found ← source.getValue hash
  match found with
  | some existing => do
    let existingHash ← valueHash domain existing
    ensure (existingHash = hash ∧ existing = value) (.valueHashMismatch hash)
    pure b
  | none => pure { b with values := b.values.insertIfNew hash value }

/-- The value hash of the old leaf of a path, whose value has to be there. -/
def oldLeaf (source : StateSource) (domain : CommitmentDomainId) (oldHash path : Hash256) :
    Except StateError (Option Hash256) :=
  if oldHash = emptyHashes domain SMT_DEPTH then pure none
  else do
    let oldValueHash ← loadLeaf source domain oldHash path
    let _ ← loadCheckedValue source domain oldValueHash
    pure (some oldValueHash)

def applyLeaf (source : StateSource) (domain : CommitmentDomainId) (oldHash : Hash256)
    (write : PreparedWrite) (b : TransitionBuilder) :
    Except StateError (Hash256 × TransitionBuilder) := do
  let oldValueHash ← oldLeaf source domain oldHash write.path
  match write.value with
  | .delete =>
    if oldValueHash = none then pure (oldHash, b) else pure (emptyHashes domain SMT_DEPTH, b)
  | .put bytes hash =>
    if oldValueHash = some hash then pure (oldHash, b)
    else do
      let b ← recordValue source domain hash bytes b
      let newHash := leafHash domain write.path hash
      pure (newHash, { b with nodes := b.nodes.insert newHash (.leaf write.path hash) })

/-- The children of the old branch at `depth`; those of an empty one are empty. -/
def oldChildren (source : StateSource) (domain : CommitmentDomainId) (oldHash : Hash256)
    (depth : ℕ) : Except StateError (Hash256 × Hash256) :=
  if oldHash = emptyHashes domain depth then
    pure (emptyHashes domain (depth + 1), emptyHashes domain (depth + 1))
  else loadBranch source domain oldHash depth

/-- The branch above the new children, unless it is as before or empty. -/
def newBranch (domain : CommitmentDomainId) (depth : ℕ) (oldHash oldLeft oldRight newLeft
    newRight : Hash256) (b : TransitionBuilder) : Except StateError (Hash256 × TransitionBuilder) :=
  if newLeft = oldLeft ∧ newRight = oldRight then pure (oldHash, b)
  else if newLeft = emptyHashes domain (depth + 1) ∧ newRight = emptyHashes domain (depth + 1) then
    pure (emptyHashes domain depth, b)
  else do
    let node := StateNode.branch depth newLeft newRight
    let hash ← node.hash domain
    pure (hash, { b with nodes := b.nodes.insert hash node })

/-- Applies `writes` to the subtree `oldHash` that is `levels` levels high. -/
def applySubtree (source : StateSource) (domain : CommitmentDomainId) :
    ℕ → ℕ → Hash256 → List PreparedWrite → TransitionBuilder →
      Except StateError (Hash256 × TransitionBuilder)
  | _, _, oldHash, [], b => pure (oldHash, b)
  | 0, _, oldHash, write :: _, b => applyLeaf source domain oldHash write b
  | levels + 1, depth, oldHash, write :: more, b => do
    let writes := write :: more
    let (oldLeft, oldRight) ← oldChildren source domain oldHash depth
    -- the writes are sorted by path and agree above `depth`
    let split := (writes.takeWhile fun write => !pathBitUnchecked write.path depth).length
    let (newLeft, b) ← (if split = 0 then pure (oldLeft, b)
      else applySubtree source domain levels (depth + 1) oldLeft (writes.take split) b)
    let (newRight, b) ← (if split = writes.length then pure (oldRight, b)
      else applySubtree source domain levels (depth + 1) oldRight (writes.drop split) b)
    newBranch domain depth oldHash oldLeft oldRight newLeft newRight b

def applyWriteSet (source : StateSource) (snapshot : DomainSnapshot) (writeSet : StateWriteSet) :
    Except StateError StateTransition := do
  ensure (snapshot.domain = writeSet.domain) .domainMismatch
  if writeSet.writes = [] then
    pure { domain := snapshot.domain, oldRoot := snapshot.root, newRoot := snapshot.root,
           nodes := ∅, values := ∅ }
  else do
    let (newRoot, b) ←
      applySubtree source snapshot.domain SMT_DEPTH 0 snapshot.root writeSet.writes ⟨∅, ∅⟩
    pure { domain := snapshot.domain, oldRoot := snapshot.root, newRoot,
           nodes := b.nodes, values := b.values }

end

end Oregon.ContractState
