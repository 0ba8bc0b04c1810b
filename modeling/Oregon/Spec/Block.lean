import Oregon.Spec.Transaction

/-! Block headers, blocks and the transaction root. -/

namespace Oregon

open Lib

/-- The difficulty commitment is the target's thirty-two bytes, kept as the
little-endian number they spell. -/
structure BlockHeader where
  version : UInt16
  previousBlock : Hash256
  transactionRoot : Hash256
  timestamp : UInt64
  difficultyCommitment : BitVec 256
  nonce : UInt64
  deriving DecidableEq, Repr

def BlockHeader.encode (h : BlockHeader) : Bytes :=
  leBytes 2 h.version.toNat ++ Hash256.asBytes h.previousBlock ++
    Hash256.asBytes h.transactionRoot ++ leBytes 8 h.timestamp.toNat ++
    leBytes 32 h.difficultyCommitment.toNat ++ leBytes 8 h.nonce.toNat

def BlockHeader.decodeFrom : Decoder BlockHeader := do
  let version ← readU16
  let previousBlock ← readHash
  let transactionRoot ← readHash
  let timestamp ← readU64
  let difficulty ← readBytes 32
  let nonce ← readU64
  pure { version, previousBlock, transactionRoot, timestamp,
         difficultyCommitment := BitVec.ofNat 256 (readLE difficulty), nonce }

def BlockHeader.decode (bytes : Bytes) : Except PrimitiveError BlockHeader :=
  decodeAll BlockHeader.decodeFrom bytes

def BLOCK_DOMAIN : Bytes := ascii "OREGON/BLOCK/V0\x00"

def BlockHeader.blockId [Crypto] (h : BlockHeader) : Hash256 := domainHash BLOCK_DOMAIN h.encode

structure Block where
  header : BlockHeader
  transactions : List Transaction
  deriving DecidableEq, Repr

def Block.encode (b : Block) : Bytes :=
  b.header.encode ++ writeVarint b.transactions.length ++ b.transactions.flatMap Transaction.encode

def Block.decodeFrom (limits : DecodeLimits) : Decoder Block := do
  let header ← BlockHeader.decodeFrom
  let transactionCount ← readLen limits.maxBlockTransactions
  if transactionCount = 0 then throw .emptyBlockTransactions else do
    let transactions ← times transactionCount (Transaction.decodeFrom limits)
    pure { header, transactions }

def Block.decode (bytes : Bytes) (limits : DecodeLimits) : Except PrimitiveError Block := do
  ensure (bytes.length ≤ limits.maxObjectBytes.toNat) .lengthLimitExceeded
  decodeAll (Block.decodeFrom limits) bytes

def MERKLE_LEAF_DOMAIN : Bytes := ascii "OREGON/MERKLE-LEAF/V0\x00"
def MERKLE_NODE_DOMAIN : Bytes := ascii "OREGON/MERKLE/V0\x00"

section Merkle

variable [Crypto]

def leafHash (tx : Transaction) : Hash256 :=
  domainHash MERKLE_LEAF_DOMAIN (Hash256.asBytes tx.txid)

def nodeHash (left right : Hash256) : Hash256 :=
  domainHash MERKLE_NODE_DOMAIN (Hash256.asBytes left ++ Hash256.asBytes right)

/-- One level up: hash the pairs, promote a last unpaired node as it is. -/
def nextLevel : List Hash256 → List Hash256
  | left :: right :: rest => nodeHash left right :: nextLevel rest
  | [last] => [last]
  | [] => []

/-- Levels are built until one node is left. A level is shorter than the one
below it, so as many rounds as there are leaves are enough. -/
def reduceLevels : ℕ → List Hash256 → List Hash256
  | 0, level => level
  | n + 1, level => if level.length > 1 then reduceLevels n (nextLevel level) else level

def transactionRoot (transactions : List Transaction) : Except PrimitiveError Hash256 :=
  match reduceLevels transactions.length (transactions.map leafHash) with
  | [] => .error .emptyBlockTransactions
  | root :: _ => .ok root

end Merkle

end Oregon
