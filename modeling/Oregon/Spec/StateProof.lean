import Oregon.Spec.ContractState

/-! Sparse Merkle proofs: the siblings beside the path of a key, those of empty subtrees
left out, and a bitmap that says which depths have one. -/

namespace Oregon.ContractState

open Lib

def SMT_PROOF_VERSION : ℕ := 1
def SMT_PROOF_BITMAP_BYTES : ℕ := 32
def MAX_SMT_SIBLINGS : ℕ := 256
def MAX_SMT_PROOF_BYTES : ℕ := 2 + SMT_PROOF_BITMAP_BYTES + MAX_SMT_SIBLINGS * 32
def HEADER_BYTES : ℕ := 2 + SMT_PROOF_BITMAP_BYTES

/-- Thirty-two bytes, with the bit of a depth as in a path. -/
abbrev SiblingBitmap := BitVec 256

structure SparseMerkleProofV1 where
  siblingBitmap : SiblingBitmap
  siblings : List Hash256
  deriving DecidableEq, Repr

def bitmapBit (bitmap : SiblingBitmap) (depth : ℕ) : Bool := bitmap.getMsbD depth

def setBitmapBit (bitmap : SiblingBitmap) (depth : ℕ) : SiblingBitmap :=
  bitmap ||| BitVec.twoPow 256 (255 - depth)

/-- The ones of all bytes together. -/
def countOnes (bitmap : SiblingBitmap) : ℕ := (List.range SMT_DEPTH).countP (bitmapBit bitmap)

/-- Thirty-two bytes as a hash. -/
def fromBytes (bytes : Bytes) : Hash256 := BitVec.ofNat 256 (readLE bytes.reverse)

def SparseMerkleProofV1.encode (proof : SparseMerkleProofV1) : Bytes :=
  leBytes 2 SMT_PROOF_VERSION ++ Hash256.asBytes proof.siblingBitmap ++
    proof.siblings.flatMap Hash256.asBytes

section

variable [Crypto]

/-- The siblings of the depths whose bit is set, and what is left of the bytes. -/
def readSiblings (domain : CommitmentDomainId) (bitmap : SiblingBitmap) :
    List ℕ → Bytes → Except StateError (List Hash256 × Bytes)
  | [], rest => pure ([], rest)
  | depth :: depths, rest =>
    if bitmapBit bitmap depth = false then readSiblings domain bitmap depths rest
    else do
      let sibling := fromBytes (rest.take 32)
      ensure (sibling ≠ emptyHashes domain (depth + 1)) (.redundantDefaultSibling depth)
      let (siblings, rest) ← readSiblings domain bitmap depths (rest.drop 32)
      pure (sibling :: siblings, rest)

def SparseMerkleProofV1.decode (domain : CommitmentDomainId) (bytes : Bytes) :
    Except StateError SparseMerkleProofV1 := do
  ensure (bytes.length ≤ MAX_SMT_PROOF_BYTES) (.proofTooLarge bytes.length)
  ensure (HEADER_BYTES ≤ bytes.length ∧ (bytes.length - HEADER_BYTES) % 32 = 0) .malformedProof
  ensure (readLE (bytes.take 2) = SMT_PROOF_VERSION) .malformedProof
  let siblingBitmap := fromBytes ((bytes.drop 2).take SMT_PROOF_BITMAP_BYTES)
  let encodedSiblings := (bytes.length - HEADER_BYTES) / 32
  ensure (encodedSiblings = countOnes siblingBitmap ∧ encodedSiblings ≤ MAX_SMT_SIBLINGS)
    .malformedProof
  let (siblings, rest) ←
    readSiblings domain siblingBitmap (List.range SMT_DEPTH) (bytes.drop HEADER_BYTES)
  ensure (rest = []) .malformedProof
  pure { siblingBitmap, siblings }

/-- The walk of a proof down `levels` levels from `current` at `depth`, with the
siblings met so far. -/
def proveFrom (source : StateSource) (domain : CommitmentDomainId) (path : Hash256) :
    ℕ → ℕ → Hash256 → SparseMerkleProofV1 →
      Except StateError (Option Bytes × SparseMerkleProofV1)
  | 0, _, current, proof => do
    let value ← readLeaf source domain path current
    pure (value, proof)
  | levels + 1, depth, current, proof =>
    if current = emptyHashes domain depth then pure (none, proof)
    else do
      let (left, right) ← loadBranch source domain current depth
      let goesRight ← pathBit path depth
      let (next, sibling) := if goesRight then (right, left) else (left, right)
      proveFrom source domain path levels (depth + 1) next
        (if sibling ≠ emptyHashes domain (depth + 1) then
          { siblingBitmap := setBitmapBit proof.siblingBitmap depth
            siblings := proof.siblings ++ [sibling] }
        else proof)

def prove (source : StateSource) (snapshot : DomainSnapshot) (key : Bytes) :
    Except StateError (Option Bytes × SparseMerkleProofV1) := do
  let path ← pathKey snapshot.domain key
  proveFrom source snapshot.domain path SMT_DEPTH 0 snapshot.root ⟨0, []⟩

/-- The sibling of a depth, taken from the end of the siblings when its bit is set. -/
def nextSibling (domain : CommitmentDomainId) (bitmap : SiblingBitmap) (depth : ℕ)
    (rest : List Hash256) : Except StateError (Hash256 × List Hash256) :=
  if bitmapBit bitmap depth then
    match rest with
    | [] => throw .malformedProof
    | sibling :: rest => do
      ensure (sibling ≠ emptyHashes domain (depth + 1)) (.redundantDefaultSibling depth)
      pure (sibling, rest)
  else pure (emptyHashes domain (depth + 1), rest)

/-- From depth `depth` up to the root; `rest` are the siblings left, the last one first. -/
def verifyFrom (domain : CommitmentDomainId) (path : Hash256) (bitmap : SiblingBitmap) :
    ℕ → Hash256 → List Hash256 → Except StateError (Hash256 × List Hash256)
  | 0, current, rest => pure (current, rest)
  | depth + 1, current, rest => do
    let (sibling, rest) ← nextSibling domain bitmap depth rest
    let goesRight ← pathBit path depth
    let current ←
      if goesRight then branchHash domain depth sibling current
      else branchHash domain depth current sibling
    verifyFrom domain path bitmap depth current rest

/-- The hash a proof starts from: that of the leaf, or of an empty slot. -/
def claimedLeaf (domain : CommitmentDomainId) (path : Hash256) :
    Option Bytes → Except StateError Hash256
  | some value => do
    let committedValue ← valueHash domain value
    pure (leafHash domain path committedValue)
  | none => pure (emptyHashes domain SMT_DEPTH)

def verifyProof (domain : CommitmentDomainId) (key : Bytes) (value : Option Bytes)
    (proof : SparseMerkleProofV1) (expectedRoot : Hash256) : Except StateError Unit := do
  let path ← pathKey domain key
  let leaf ← claimedLeaf domain path value
  let (current, rest) ←
    verifyFrom domain path proof.siblingBitmap SMT_DEPTH leaf proof.siblings.reverse
  ensure (rest = []) .malformedProof
  ensure (current = expectedRoot) .invalidProof

end

end Oregon.ContractState
