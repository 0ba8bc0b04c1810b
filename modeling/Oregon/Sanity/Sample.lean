import Oregon.Sanity.Replay
import Oregon.Spec.Calls

/-! A small world to evaluate the model in: hashes that read off the last bytes of
what they hash, so that the tag of a coinbase is its id and headers with distinct
nonces have distinct ids; proof of work that always succeeds; and a verifier that
authorizes every spend. -/

namespace Oregon.Sample

open Lib

scoped instance crypto : Crypto where
  blake3 bs := BitVec.ofNat 256 (readLE (bs.drop (bs.length - 16)))
  randomx _ _ := 0

def easiest : Target := ⟨BitVec.allOnes 256, by decide⟩

def params : ConsensusParams := ⟨easiest, easiest, 0⟩

def verifier : SpendVerifier := fun _ _ _ => .ok ()

def founderOutput : TxOutput :=
  ⟨⟨FOUNDER_ALLOCATION_BASE_UNITS, by decide⟩, founderProgram params⟩

/-- A coinbase for `height` that claims nothing for the miner. -/
def coinbase (height tag : ℕ) : Transaction where
  version := 1
  inputs := [{ previousTxid := 0, previousOutputIndex := U32_MAX, sequence := U32_MAX,
               witness := [writeVarint height] }]
  outputs := (if height = 1 then [founderOutput] else []) ++
    [⟨⟨0, Nat.zero_le _⟩, leBytes 8 tag⟩]
  lockTime := 0

def rootOf (transactions : List Transaction) : Hash256 :=
  match transactionRoot transactions with
  | .ok root => root
  | .error _ => 0

/-- A block on `parent` that commits to its transactions. -/
def block (parent : Hash256) (timestamp : UInt64) (nonce : UInt64)
    (transactions : List Transaction) : Block where
  header := { version := 1, previousBlock := parent, transactionRoot := rootOf transactions,
              timestamp, difficultyCommitment := easiest.value, nonce }
  transactions

/-- The anchor of the sample chains. -/
def anchor : BlockHeader where
  version := 1
  previousBlock := 0
  transactionRoot := 0
  timestamp := 1000
  difficultyCommitment := easiest.value
  nonce := 0

/-- The first block: the founder's allocation. -/
def first : Block := block anchor.blockId 1300 1 [coinbase 1 1]

def second : Block := block first.header.blockId 1600 2 [coinbase 2 2]

/-- The set the first two blocks leave. -/
def afterTwo : UtxoState :=
  match replay params verifier [first, second] with
  | .ok s => s
  | .error _ => .new

def config : ChainConfig := ⟨anchor, anchor.timestamp, params⟩

/-- A branch beside the first block. -/
def rivalFirst : Block := block anchor.blockId 1300 11 [coinbase 1 11]

def rivalSecond : Block := block rivalFirst.header.blockId 1600 12 [coinbase 2 12]

def deliver (b : Block) : Call := ⟨.acceptBlock b, .none⟩

def announce (b : Block) : Call := ⟨.acceptHeader b.header, .none⟩

/-- The first block, then a branch that outgrows it. -/
def forkCalls : List Call := [deliver first, deliver rivalFirst, deliver rivalSecond]

/-- A branch that cannot be connected: its first coinbase carries the wrong height. -/
def badFirst : Block := block anchor.blockId 1300 21 [coinbase 2 21]

def badSecond : Block := block badFirst.header.blockId 1600 22 [coinbase 2 22]

/-- The bad branch is announced before it is delivered. -/
def badCalls : List Call :=
  [deliver first, announce badFirst, announce badSecond, deliver badFirst, deliver badSecond]

/-- The bad branch is delivered while a better header is known. -/
def rejectCalls : List Call :=
  [deliver first, deliver badFirst, announce second, deliver badSecond]

/-- Another child of the bad block. -/
def badSibling : Block := block badFirst.header.blockId 1600 23 [coinbase 2 23]

def badThird : Block := block badSecond.header.blockId 1900 24 [coinbase 3 24]

/-- Two branches grow on the bad block before one of them is heavy enough to be tried. -/
def siblingCalls : List Call :=
  [deliver first, deliver second, deliver badFirst, deliver badSibling, deliver badSecond,
    deliver badThird]

end Oregon.Sample
