import Oregon.Spec.Consensus

/-! The context-free block rules, the coinbase rule, and the header rules before
and including proof of work. -/

namespace Oregon

open Lib

inductive NormalTransactionError where
  | tooLarge
  | emptyInputs
  | emptyOutputs
  | coinbaseForm
  | nullOutpoint
  deriving DecidableEq, Repr

def U32_MAX : UInt32 := 0xffffffff

/-- The outpoint reserved for coinbases: the zero id with the largest index. -/
def TxInput.isNull (i : TxInput) : Bool := i.previousTxid = 0 && i.previousOutputIndex = U32_MAX

def isCoinbaseForm (tx : Transaction) : Bool :=
  match tx.inputs with
  | [input] => input.isNull
  | _ => false

/-- The sum of some outputs in `u64`, or `e` when it overflows. -/
def sumOutputs {ε : Type} (e : ε) (outputs : List TxOutput) : Except ε ℕ :=
  outputs.foldlM (fun sum output => orElse (checkedAdd sum output.value.baseUnits) e) 0

def founderProgram (params : ConsensusParams) : Bytes :=
  KEY_COMMIT_V1 :: Hash256.asBytes params.founderKeyCommitment

/-- The outputs the miner claims: all but the founder's, which only height one has. -/
def minerOutputs (tx : Transaction) (height : ℕ) (params : ConsensusParams) :
    Except ConsensusError (List TxOutput) :=
  if height = 1 then do
    let founder ← orElse tx.outputs.head? .invalidFounderOutput
    ensure (founder.value.baseUnits = FOUNDER_ALLOCATION_BASE_UNITS ∧
      founder.lockingProgram = founderProgram params) .invalidFounderOutput
    pure (tx.outputs.drop 1)
  else pure tx.outputs

def validateCoinbase (tx : Transaction) (height : ℕ) (totalFees : Amount)
    (params : ConsensusParams) : Except ConsensusError Unit := do
  ensure (height ≠ 0 ∧ tx.version = 1 ∧ tx.lockTime = 0 ∧ isCoinbaseForm tx = true) .invalidCoinbase
  let input ← orElse tx.inputs.head? .invalidCoinbase
  ensure (input.sequence = U32_MAX ∧ input.witness ≠ []) .invalidCoinbase
  ensure (input.witness.head? = some (writeVarint height)) .invalidCoinbase
  let outputs ← minerOutputs tx height params
  let minerClaim ← sumOutputs .arithmeticOverflow outputs
  let subsidy ← blockSubsidy height
  let ceiling ← orElse (checkedAdd subsidy.baseUnits totalFees.baseUnits) .arithmeticOverflow
  ensure (minerClaim ≤ ceiling) .coinbaseOverClaim

def validateNormalTransactionSkeleton (tx : Transaction) : Except NormalTransactionError Unit := do
  ensure (tx.encode.length ≤ MAX_TRANSACTION_BYTES) .tooLarge
  ensure (tx.inputs ≠ []) .emptyInputs
  ensure (tx.outputs ≠ []) .emptyOutputs
  ensure (isCoinbaseForm tx = false) .coinbaseForm
  ensure (tx.inputs.any TxInput.isNull = false) .nullOutpoint

/-- The consensus error that reports a normal transaction's skeleton error. -/
def NormalTransactionError.toConsensus (index : ℕ) : NormalTransactionError → ConsensusError
  | tooLarge => .transactionTooLarge index
  | emptyInputs => .emptyNormalTransactionInputs index
  | emptyOutputs => .emptyNormalTransactionOutputs index
  | coinbaseForm => .multipleCoinbase
  | nullOutpoint => .nullOutpointInNormalTransaction

/-- Sizes first, in order; for all but the coinbase through the skeleton check. -/
def checkSizes (transactions : List Transaction) : Except ConsensusError Unit :=
  transactions.zipIdx.forM fun (tx, index) =>
    if index = 0 then
      ensure (tx.encode.length ≤ MAX_TRANSACTION_BYTES) (.transactionTooLarge index)
    else
      ensure (validateNormalTransactionSkeleton tx ≠ .error .tooLarge) (.transactionTooLarge index)

def checkNormalTransactions (transactions : List Transaction) : Except ConsensusError Unit :=
  (transactions.zipIdx.drop 1).forM fun (tx, index) =>
    (validateNormalTransactionSkeleton tx).mapError (NormalTransactionError.toConsensus index)

/-- The context a header is checked in: its height, its parent and the branch's
last timestamps. -/
structure HeaderContext where
  height : ℕ
  parent : BlockHeader
  genesisTimestamp : UInt64
  mtpWindow : List UInt64

section

variable [Crypto]

def validateNonGenesisBlockSkeleton (block : Block) (height : ℕ) : Except ConsensusError Unit := do
  ensure (height ≠ 0) .invalidHeight
  ensure (block.encode.length ≤ MAX_BLOCK_BYTES) .blockTooLarge
  ensure (block.transactions ≠ []) .emptyNonGenesisBlock
  checkSizes block.transactions
  let root ← (transactionRoot block.transactions).mapError fun _ => .merkleRootMismatch
  ensure (root = block.header.transactionRoot) .merkleRootMismatch
  ensure (block.transactions.head?.any isCoinbaseForm = true) .invalidCoinbase
  checkNormalTransactions block.transactions

structure PrePowHeaderFacts where
  height : ℕ
  headerId : Hash256
  target : Target
  work : ℕ

def validateHeaderPrePow (header : BlockHeader) (context : HeaderContext)
    (params : ConsensusParams) : Except ConsensusError PrePowHeaderFacts := do
  ensure (context.height ≠ 0) .invalidHeight
  ensure (header.previousBlock = context.parent.blockId) .previousBlockMismatch
  let mtp ← medianTimePast context.mtpWindow
  ensure (mtp < header.timestamp) .timestampNotAfterMtp
  let expected ← requiredTarget context.height context.parent.timestamp
    context.genesisTimestamp params
  let actual ← Target.fromLeBytes header.difficultyCommitment
  actual.validateAgainst params.powLimit
  ensure (actual = expected) .unexpectedTarget
  pure { height := context.height, headerId := header.blockId, target := actual,
         work := blockWork actual }

def POW_INPUT_DOMAIN : Bytes := ascii "OREGON/POW/V1\x00"
def RANDOMX_KEY_DOMAIN : Bytes := ascii "OREGON/RANDOMX-KEY/V1\x00"
def RANDOMX_KEY_EPOCH : ℕ := 864
def RANDOMX_KEY_DELAY : ℕ := 24

def powInput (header : BlockHeader) : Bytes := POW_INPUT_DOMAIN ++ header.encode

def keyBlockHeight (candidateHeight : ℕ) : ℕ :=
  if candidateHeight < RANDOMX_KEY_EPOCH + RANDOMX_KEY_DELAY then 0
  else (candidateHeight - RANDOMX_KEY_DELAY) / RANDOMX_KEY_EPOCH * RANDOMX_KEY_EPOCH

def deriveRandomxKey (keyBlockId : Hash256) : Hash256 :=
  Crypto.blake3 (RANDOMX_KEY_DOMAIN ++ Hash256.asBytes keyBlockId)

/-- The bytes are compared from the most significant down, which is the order of
the numbers they spell. -/
def hashMeetsTarget (hash target : BitVec 256) : Bool := decide (hash.toNat ≤ target.toNat)

/-- `keyBlockAt` is the source of key blocks; `engineKey` the key the engine was made with. -/
def validateHeaderPow (header : BlockHeader) (facts : PrePowHeaderFacts)
    (keyBlockAt : ℕ → Option Hash256) (engineKey : Hash256) :
    Except ConsensusError (BitVec 256) := do
  ensure (facts.headerId = header.blockId) .powPrevalidationMismatch
  let keyBlockId ← orElse (keyBlockAt (keyBlockHeight facts.height)) .powKeyBlockUnavailable
  ensure (engineKey = deriveRandomxKey keyBlockId) .powEngineKeyMismatch
  let hash := Crypto.randomx engineKey (powInput header)
  ensure (hashMeetsTarget hash facts.target.value = true) .insufficientProofOfWork
  pure hash

end

end Oregon
