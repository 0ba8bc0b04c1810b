import Oregon.Lib.Stateful
import Oregon.Spec.Reserve

/-! Execution addresses, the terms and the funding of an execution fee, and the book of
escrows. A transaction opens an escrow for the most it can cost; the settlement charges
the weight that was used and refunds the rest. -/

namespace Oregon.Execution

open Lib Std

inductive ExecutionAddressKind where
  | evm
  | wasm
  | oregon
  | system
  deriving DecidableEq, Repr

def ExecutionAddressKind.toU8 : ExecutionAddressKind → UInt8
  | evm => 0x01
  | wasm => 0x02
  | oregon => 0x03
  | system => 0x04

inductive ExecutionAddressError where
  | invalidLength (length : ℕ)
  | unknownKind (kind : UInt8)
  | nonCanonicalEvmPadding
  deriving DecidableEq, Repr

/-- A kind and thirty-two bytes, of which an EVM address uses the last twenty. -/
structure ExecutionAddress where
  kind : ExecutionAddressKind
  payload : Hash256
  padded : ¬ (kind = .evm ∧ ∃ byte ∈ (Hash256.asBytes payload).take 12, byte ≠ 0)
  deriving DecidableEq, Repr

def ExecutionAddress.new (kind : ExecutionAddressKind) (payload : Hash256) :
    Except ExecutionAddressError ExecutionAddress :=
  if h : kind = .evm ∧ ∃ byte ∈ (Hash256.asBytes payload).take 12, byte ≠ 0 then
    .error .nonCanonicalEvmPadding
  else .ok ⟨kind, payload, h⟩

def ExecutionAddress.toBytes (address : ExecutionAddress) : Bytes :=
  address.kind.toU8 :: Hash256.asBytes address.payload

inductive FeeSourceKind where
  | nativeUtxo
  | executionBalance
  deriving DecidableEq, Repr

def FeeSourceKind.toU8 : FeeSourceKind → UInt8
  | nativeUtxo => 0x01
  | executionBalance => 0x02

inductive ExecutionOutcome where
  | committed
  | reverted
  | resourceExhausted
  deriving DecidableEq, Repr

inductive FeeSettlementError where
  | unknownFeeSourceKind (kind : UInt8)
  | unknownExecutionOutcome (outcome : UInt8)
  | invalidReceiptLength (length : ℕ)
  | unsupportedReceiptVersion (version : ℕ)
  | invalidActualWeight
  | maxFeeBelowBaseFee
  | priorityFeeExceedsMaxFee
  | arithmeticOverflow
  | amountExceedsMaximumSupply
  | inconsistentArithmetic
  | primitive (e : PrimitiveError)
  | address (e : ExecutionAddressError)
  deriving DecidableEq, Repr

inductive FeeError where
  | zeroMaxWeight
  | maxFeeBelowBaseFee
  | priorityFeeExceedsMaxFee
  | arithmeticOverflow
  | amountExceedsMaximumSupply
  | zeroEscrowCapacity
  | escrowCapacityExceeded
  | insufficientFunding
  | capabilityAlreadyConsumed
  | staleFundingSource
  | escrowAlreadyExists
  | unknownEscrow
  | escrowAlreadySettled
  | actualWeightOutOfRange
  | escrowHistoryCapacityExceeded
  | receipt (e : FeeSettlementError)
  deriving DecidableEq, Repr

def U64_MAX : ℕ := 2 ^ 64 - 1

/-- A wide amount that has to fit into sixty-four bits. -/
def narrow (value : ℕ) : Option ℕ := if value ≤ U64_MAX then some value else none

def CAPABILITY_DOMAIN : Bytes := ascii "OREGON/FEE/CAPABILITY/V1\x00"
def SOURCE_DOMAIN : Bytes := ascii "OREGON/FEE/SOURCE/V1\x00"
def ESCROW_DOMAIN : Bytes := ascii "OREGON/FEE/ESCROW/V1\x00"
def CAPABILITY_VERSION_V1 : ℕ := 1
def ESCROW_VERSION_V1 : ℕ := 1
def MAX_ESCROW_HISTORY_ENTRIES : ℕ := 65536

structure FeeSettlementReceiptV1Parts where
  txid : Hash256
  escrowId : Hash256
  payer : ExecutionAddress
  sourceKind : FeeSourceKind
  outcome : ExecutionOutcome
  baseFeePerWeight : ℕ
  maxFeePerWeight : ℕ
  maxPriorityFeePerWeight : ℕ
  maxWeight : ℕ
  actualWeight : ℕ
  effectivePrice : ℕ
  baseComponent : ℕ
  priorityComponent : ℕ
  charged : ℕ
  refund : ℕ
  deriving DecidableEq, Repr

def validateArithmetic (parts : FeeSettlementReceiptV1Parts) : Except FeeSettlementError Unit := do
  ensure (¬ (parts.maxWeight = 0 ∨ parts.actualWeight = 0 ∨ parts.maxWeight < parts.actualWeight))
    .invalidActualWeight
  ensure (parts.baseFeePerWeight ≤ parts.maxFeePerWeight) .maxFeeBelowBaseFee
  ensure (parts.maxPriorityFeePerWeight ≤ parts.maxFeePerWeight) .priorityFeeExceedsMaxFee
  let maxEscrow := parts.maxWeight * parts.maxFeePerWeight
  ensure (maxEscrow ≤ U64_MAX) .arithmeticOverflow
  ensure (maxEscrow ≤ MAX_SUPPLY_BASE_UNITS) .amountExceedsMaximumSupply
  let offeredPrice := parts.baseFeePerWeight + parts.maxPriorityFeePerWeight
  let effectivePrice := min parts.maxFeePerWeight offeredPrice
  let charged := parts.actualWeight * effectivePrice
  let baseComponent := parts.actualWeight * parts.baseFeePerWeight
  let priorityComponent ← orElse (checkedSub charged baseComponent) .inconsistentArithmetic
  let refund ← orElse (checkedSub maxEscrow charged) .inconsistentArithmetic
  ensure (¬ (effectivePrice ≠ parts.effectivePrice ∨ baseComponent ≠ parts.baseComponent ∨
    priorityComponent ≠ parts.priorityComponent ∨ charged ≠ parts.charged ∨
    refund ≠ parts.refund)) .inconsistentArithmetic

/-- A receipt whose amounts follow from its prices and weights. -/
structure FeeSettlementReceiptV1 where
  parts : FeeSettlementReceiptV1Parts
  valid : validateArithmetic parts = .ok ()
  deriving DecidableEq

def FeeSettlementReceiptV1.new (parts : FeeSettlementReceiptV1Parts) :
    Except FeeSettlementError FeeSettlementReceiptV1 :=
  match h : validateArithmetic parts with
  | .ok () => .ok ⟨parts, h⟩
  | .error e => .error e

/-- What a payer offers to pay a fee from. -/
@[ext]
structure FundingCapabilityV1 where
  sourceKind : FeeSourceKind
  payer : ExecutionAddress
  sourceCommitment : Hash256
  availableAmount : ℕ
  sourceSequence : ℕ
  authorizationCommitment : Hash256
  available_le : availableAmount ≤ MAX_SUPPLY_BASE_UNITS
  deriving Repr

instance : DecidableEq FundingCapabilityV1 := fun _ _ =>
  decidable_of_iff _ FundingCapabilityV1.ext_iff.symm

def FundingCapabilityV1.new (sourceKind : FeeSourceKind) (payer : ExecutionAddress)
    (sourceCommitment : Hash256) (availableAmount sourceSequence : ℕ)
    (authorizationCommitment : Hash256) : Except FeeError FundingCapabilityV1 :=
  if h : availableAmount ≤ MAX_SUPPLY_BASE_UNITS then
    .ok ⟨sourceKind, payer, sourceCommitment, availableAmount, sourceSequence,
      authorizationCommitment, h⟩
  else .error .amountExceedsMaximumSupply

/-- The prices a transaction accepts, the weight it may use, and the most that can cost. -/
@[ext]
structure FeeTermsV1 where
  baseFeePerWeight : ℕ
  maxFeePerWeight : ℕ
  maxPriorityFeePerWeight : ℕ
  maxWeight : ℕ
  maxEscrow : ℕ
  maxWeight_ne : maxWeight ≠ 0
  base_le : baseFeePerWeight ≤ maxFeePerWeight
  priority_le : maxPriorityFeePerWeight ≤ maxFeePerWeight
  maxEscrow_eq : maxEscrow = maxWeight * maxFeePerWeight
  maxEscrow_le : maxEscrow ≤ MAX_SUPPLY_BASE_UNITS
  deriving Repr

instance : DecidableEq FeeTermsV1 := fun _ _ => decidable_of_iff _ FeeTermsV1.ext_iff.symm

def FeeTermsV1.new (baseFeePerWeight maxFeePerWeight maxPriorityFeePerWeight maxWeight : ℕ) :
    Except FeeError FeeTermsV1 :=
  if hweight : maxWeight = 0 then .error .zeroMaxWeight
  else if hbase : maxFeePerWeight < baseFeePerWeight then .error .maxFeeBelowBaseFee
  else if hpriority : maxFeePerWeight < maxPriorityFeePerWeight then .error .priorityFeeExceedsMaxFee
  else if U64_MAX < maxWeight * maxFeePerWeight then .error .arithmeticOverflow
  else if hescrow : MAX_SUPPLY_BASE_UNITS < maxWeight * maxFeePerWeight then
    .error .amountExceedsMaximumSupply
  else .ok ⟨baseFeePerWeight, maxFeePerWeight, maxPriorityFeePerWeight, maxWeight,
    maxWeight * maxFeePerWeight, hweight, Nat.not_lt.mp hbase, Nat.not_lt.mp hpriority, rfl,
    Nat.not_lt.mp hescrow⟩

structure EscrowTicketV1 where
  txid : Hash256
  payer : ExecutionAddress
  sourceKind : FeeSourceKind
  capabilityId : Hash256
  terms : FeeTermsV1
  deriving DecidableEq, Repr

structure SettlementResultV1 where
  receipt : FeeSettlementReceiptV1
  deriving DecidableEq

/-- The escrows that are open, those that are settled, and what has funded them. -/
structure EscrowBookV1 where
  maxOpen : ℕ
  openEscrows : ExtTreeMap Hash256 EscrowTicketV1
  consumedCapabilities : ExtTreeSet Hash256
  consumedSources : ExtTreeSet Hash256
  settled : ExtTreeSet Hash256

def EscrowBookV1.new (maxOpen : ℕ) : Except FeeError EscrowBookV1 := do
  ensure (maxOpen ≠ 0) .zeroEscrowCapacity
  pure { maxOpen, openEscrows := ∅, consumedCapabilities := ∅, consumedSources := ∅, settled := ∅ }

section

variable [Crypto]

def FundingCapabilityV1.capabilityId (capability : FundingCapabilityV1) : Hash256 :=
  domainHash CAPABILITY_DOMAIN
    (leBytes 2 CAPABILITY_VERSION_V1 ++ [capability.sourceKind.toU8] ++ capability.payer.toBytes ++
      Hash256.asBytes capability.sourceCommitment ++ leBytes 8 capability.availableAmount ++
      leBytes 8 capability.sourceSequence ++ Hash256.asBytes capability.authorizationCommitment)

def FundingCapabilityV1.sourceId (capability : FundingCapabilityV1) : Hash256 :=
  domainHash SOURCE_DOMAIN
    (leBytes 2 CAPABILITY_VERSION_V1 ++ [capability.sourceKind.toU8] ++ capability.payer.toBytes ++
      Hash256.asBytes capability.sourceCommitment ++ leBytes 8 capability.sourceSequence)

def EscrowTicketV1.new (txid : Hash256) (capability : FundingCapabilityV1) (terms : FeeTermsV1) :
    EscrowTicketV1 where
  txid
  payer := capability.payer
  sourceKind := capability.sourceKind
  capabilityId := capability.capabilityId
  terms

def EscrowTicketV1.escrowId (ticket : EscrowTicketV1) : Hash256 :=
  domainHash ESCROW_DOMAIN
    (leBytes 2 ESCROW_VERSION_V1 ++ Hash256.asBytes ticket.txid ++ ticket.payer.toBytes ++
      [ticket.sourceKind.toU8] ++ Hash256.asBytes ticket.capabilityId ++
      [ticket.terms.baseFeePerWeight, ticket.terms.maxFeePerWeight,
        ticket.terms.maxPriorityFeePerWeight, ticket.terms.maxWeight,
        ticket.terms.maxEscrow].flatMap (leBytes 8))

/-- The checks of an opening, and the ticket that it gives. -/
def EscrowBookV1.openTicket (book : EscrowBookV1) (txid : Hash256)
    (capability : FundingCapabilityV1) (terms : FeeTermsV1) : Except FeeError EscrowTicketV1 := do
  let capabilityId := capability.capabilityId
  ensure (capabilityId ∉ book.consumedCapabilities) .capabilityAlreadyConsumed
  let sourceId := capability.sourceId
  ensure (sourceId ∉ book.consumedSources) .staleFundingSource
  ensure (book.openEscrows.size < book.maxOpen) .escrowCapacityExceeded
  ensure (¬ (MAX_ESCROW_HISTORY_ENTRIES ≤ book.consumedCapabilities.size ∨
    MAX_ESCROW_HISTORY_ENTRIES ≤ book.consumedSources.size)) .escrowHistoryCapacityExceeded
  ensure (terms.maxEscrow ≤ capability.availableAmount) .insufficientFunding
  let ticket := EscrowTicketV1.new txid capability terms
  let escrowId := ticket.escrowId
  ensure (¬ (escrowId ∈ book.openEscrows ∨ escrowId ∈ book.settled)) .escrowAlreadyExists
  pure ticket

def EscrowBookV1.open (txid : Hash256) (capability : FundingCapabilityV1) (terms : FeeTermsV1) :
    Stateful EscrowBookV1 FeeError EscrowTicketV1 := do
  let book ← get
  let ticket ← check (book.openTicket txid capability terms)
  modify fun book => { book with
    consumedCapabilities := book.consumedCapabilities.insert capability.capabilityId }
  modify fun book => { book with
    consumedSources := book.consumedSources.insert capability.sourceId }
  modify fun book => { book with openEscrows := book.openEscrows.insert ticket.escrowId ticket }
  pure ticket

end

/-- The amounts of a settlement, computed wide and checked to fit. -/
def settlementParts (escrowId : Hash256) (ticket : EscrowTicketV1) (outcome : ExecutionOutcome)
    (actualWeight : ℕ) : Except FeeError FeeSettlementReceiptV1Parts := do
  let terms := ticket.terms
  let offeredPrice := terms.baseFeePerWeight + terms.maxPriorityFeePerWeight
  let effectivePriceWide := min terms.maxFeePerWeight offeredPrice
  let chargedWide := actualWeight * effectivePriceWide
  let baseComponentWide := actualWeight * terms.baseFeePerWeight
  let priorityComponentWide ← orElse (checkedSub chargedWide baseComponentWide) .arithmeticOverflow
  let refundWide ← orElse (checkedSub terms.maxEscrow chargedWide) .arithmeticOverflow
  let effectivePrice ← orElse (narrow effectivePriceWide) .arithmeticOverflow
  let charged ← orElse (narrow chargedWide) .arithmeticOverflow
  let baseComponent ← orElse (narrow baseComponentWide) .arithmeticOverflow
  let priorityComponent ← orElse (narrow priorityComponentWide) .arithmeticOverflow
  let refund ← orElse (narrow refundWide) .arithmeticOverflow
  pure { txid := ticket.txid, escrowId, payer := ticket.payer, sourceKind := ticket.sourceKind,
         outcome, baseFeePerWeight := terms.baseFeePerWeight,
         maxFeePerWeight := terms.maxFeePerWeight,
         maxPriorityFeePerWeight := terms.maxPriorityFeePerWeight, maxWeight := terms.maxWeight,
         actualWeight, effectivePrice, baseComponent, priorityComponent, charged, refund }

/-- The checks of a settlement, and the result that it gives. -/
def EscrowBookV1.settlement (book : EscrowBookV1) (escrowId : Hash256) (outcome : ExecutionOutcome)
    (actualWeight : ℕ) : Except FeeError SettlementResultV1 := do
  ensure (escrowId ∉ book.settled) .escrowAlreadySettled
  let ticket ← orElse book.openEscrows[escrowId]? .unknownEscrow
  ensure (¬ (actualWeight = 0 ∨ ticket.terms.maxWeight < actualWeight)) .actualWeightOutOfRange
  ensure (book.settled.size < MAX_ESCROW_HISTORY_ENTRIES) .escrowHistoryCapacityExceeded
  let parts ← settlementParts escrowId ticket outcome actualWeight
  let receipt ← (FeeSettlementReceiptV1.new parts).mapError .receipt
  pure ⟨receipt⟩

def EscrowBookV1.settle (escrowId : Hash256) (outcome : ExecutionOutcome) (actualWeight : ℕ) :
    Stateful EscrowBookV1 FeeError SettlementResultV1 := do
  let book ← get
  let result ← check (book.settlement escrowId outcome actualWeight)
  modify fun book => { book with openEscrows := book.openEscrows.erase escrowId }
  modify fun book => { book with settled := book.settled.insert escrowId }
  pure result

end Oregon.Execution
