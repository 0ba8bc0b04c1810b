import Oregon.Spec.Runtime

/-! The execution envelope: what a transaction of the execution layer carries, its
authorizations, and its encodings, the whole one and the one that is signed. -/

namespace Oregon.Execution

open Lib

def MAX_ENVELOPE_BYTES : ℕ := 2097152
def MAX_DOMAIN_PAYLOAD_BYTES : UInt64 := 1048576
def MAX_ACCESS_HINT_BYTES : UInt64 := 262144
def MAX_AUTH_PROOFS : UInt64 := 2
def MAX_AUTH_PROOF_BYTES : UInt64 := 4096
def ENVELOPE_VERSION_V1 : UInt16 := 1

inductive ExecutionEnvelopeError where
  | primitive (e : PrimitiveError)
  | executionAddress (e : ExecutionAddressError)
  | unsupportedVersion (version : UInt16)
  | unknownDomain (domain : UInt8)
  | unknownAuthorizationScope (scope : UInt8)
  | unknownAuthorizationScheme (scheme : UInt16)
  | invalidOptionFlag (flag : UInt8)
  | feePayerEqualsPrincipal
  | invalidHeightWindow
  | zeroMaxWeight
  | priorityFeeExceedsMaxFee
  | invalidAuthorizationProofLength
  | invalidAuthorizationCount
  | duplicateAuthorizationScope
  | missingPrincipalAuthorization
  | unexpectedFeePayerAuthorization
  | missingFeePayerAuthorization
  | ethereumAuthorizationOutsideEvm
  | ethereumAuthorizationRequiresNeutralHeightWindow
  | emptyAccessHints
  | accessHintsTooLarge
  | domainPayloadTooLarge
  | envelopeTooLarge
  deriving DecidableEq, Repr

def ExecutionDomain.tryFrom (value : UInt8) : Except ExecutionEnvelopeError ExecutionDomain :=
  if value = 0x10 then .ok .native
  else if value = 0x11 then .ok .evm
  else if value = 0x12 then .ok .wasm
  else if value = 0x13 then .ok .system
  else .error (.unknownDomain value)

inductive AuthorizationScope where
  | principal
  | feePayer
  deriving DecidableEq, Repr

def AuthorizationScope.toU8 : AuthorizationScope → UInt8
  | principal => 0x01
  | feePayer => 0x02

def AuthorizationScope.tryFrom (value : UInt8) : Except ExecutionEnvelopeError AuthorizationScope :=
  if value = 0x01 then .ok .principal
  else if value = 0x02 then .ok .feePayer
  else .error (.unknownAuthorizationScope value)

inductive AuthorizationScheme where
  | oregonSchnorrV1
  | ethereumEcdsaV1
  | oregonThresholdV1
  deriving DecidableEq, Repr

def AuthorizationScheme.toU16 : AuthorizationScheme → UInt16
  | oregonSchnorrV1 => 0x0001
  | ethereumEcdsaV1 => 0x0002
  | oregonThresholdV1 => 0x0003

def AuthorizationScheme.tryFrom (value : UInt16) :
    Except ExecutionEnvelopeError AuthorizationScheme :=
  if value = 0x0001 then .ok .oregonSchnorrV1
  else if value = 0x0002 then .ok .ethereumEcdsaV1
  else if value = 0x0003 then .ok .oregonThresholdV1
  else .error (.unknownAuthorizationScheme value)

/-- The lengths that a proof of a scheme may have. -/
def AuthorizationScheme.validLength (length : ℕ) : AuthorizationScheme → Prop
  | oregonSchnorrV1 => length = 96
  | ethereumEcdsaV1 => length = 65
  | oregonThresholdV1 => 1 ≤ length ∧ length ≤ MAX_AUTH_PROOF_BYTES.toNat

instance (length : ℕ) (scheme : AuthorizationScheme) : Decidable (scheme.validLength length) :=
  match scheme with
  | .oregonSchnorrV1 => inferInstanceAs (Decidable (length = 96))
  | .ethereumEcdsaV1 => inferInstanceAs (Decidable (length = 65))
  | .oregonThresholdV1 => inferInstanceAs (Decidable (_ ∧ _))

structure AuthorizationProof where
  scope : AuthorizationScope
  scheme : AuthorizationScheme
  proof : Bytes
  length_valid : scheme.validLength proof.length
  deriving DecidableEq

def AuthorizationProof.new (scope : AuthorizationScope) (scheme : AuthorizationScheme)
    (proof : Bytes) : Except ExecutionEnvelopeError AuthorizationProof :=
  if h : scheme.validLength proof.length then .ok ⟨scope, scheme, proof, h⟩
  else .error .invalidAuthorizationProofLength

structure FeeCaps where
  maxFeePerWeight : UInt64
  maxPriorityFeePerWeight : UInt64
  maxWeight : UInt64
  weight_ne_zero : maxWeight ≠ 0
  priority_le : maxPriorityFeePerWeight ≤ maxFeePerWeight
  deriving DecidableEq

def FeeCaps.new (maxFeePerWeight maxPriorityFeePerWeight maxWeight : UInt64) :
    Except ExecutionEnvelopeError FeeCaps :=
  if hzero : maxWeight = 0 then .error .zeroMaxWeight
  else if hle : maxPriorityFeePerWeight ≤ maxFeePerWeight then
    .ok ⟨maxFeePerWeight, maxPriorityFeePerWeight, maxWeight, hzero, hle⟩
  else .error .priorityFeeExceedsMaxFee

structure ExecutionEnvelopeV1Parts where
  chainId : UInt64
  executionDomain : ExecutionDomain
  validAfterHeight : UInt64
  validUntilHeight : UInt64
  principal : ExecutionAddress
  feePayer : Option ExecutionAddress
  feeCaps : FeeCaps
  authorizations : List AuthorizationProof
  domainPayload : Bytes
  accessHints : Option Bytes
  deriving DecidableEq

def validateAuthorizations (executionDomain : ExecutionDomain)
    (validAfterHeight validUntilHeight : UInt64) (hasDistinctFeePayer : Bool)
    (authorizations : List AuthorizationProof) : Except ExecutionEnvelopeError Unit := do
  ensure (authorizations ≠ [] ∧ authorizations.length ≤ MAX_AUTH_PROOFS.toNat)
    .invalidAuthorizationCount
  ensure (authorizations.head?.all (·.scope = .principal) = true) .missingPrincipalAuthorization
  ensure (¬ (authorizations.length = 2 ∧
      authorizations[1]?.all (·.scope = .feePayer) = false)) .duplicateAuthorizationScope
  let hasFeePayerAuthorization := authorizations.any (·.scope = .feePayer)
  ensure (¬ (hasDistinctFeePayer ∧ ¬ hasFeePayerAuthorization)) .missingFeePayerAuthorization
  ensure (¬ (¬ hasDistinctFeePayer ∧ hasFeePayerAuthorization)) .unexpectedFeePayerAuthorization
  ensure (¬ (hasDistinctFeePayer ∧ authorizations.length ≠ 2)) .missingFeePayerAuthorization
  ensure (¬ (¬ hasDistinctFeePayer ∧ authorizations.length ≠ 1)) .unexpectedFeePayerAuthorization
  if authorizations.any (·.scheme = .ethereumEcdsaV1) then do
    ensure (executionDomain = .evm) .ethereumAuthorizationOutsideEvm
    ensure (validAfterHeight = 0 ∧ validUntilHeight = -1)
      .ethereumAuthorizationRequiresNeutralHeightWindow
  else pure ()

def validateAccessHints : Option Bytes → Except ExecutionEnvelopeError Unit
  | some hints => do
    ensure (hints ≠ []) .emptyAccessHints
    ensure (hints.length ≤ MAX_ACCESS_HINT_BYTES.toNat) .accessHintsTooLarge
  | none => pure ()

/-- The checks that every envelope has passed. -/
def ExecutionEnvelopeV1Parts.validate (parts : ExecutionEnvelopeV1Parts) :
    Except ExecutionEnvelopeError Unit := do
  ensure (parts.validAfterHeight ≤ parts.validUntilHeight) .invalidHeightWindow
  ensure (parts.feePayer ≠ some parts.principal) .feePayerEqualsPrincipal
  ensure (parts.domainPayload.length ≤ MAX_DOMAIN_PAYLOAD_BYTES.toNat) .domainPayloadTooLarge
  validateAccessHints parts.accessHints
  validateAuthorizations parts.executionDomain parts.validAfterHeight parts.validUntilHeight
    parts.feePayer.isSome parts.authorizations

structure ExecutionEnvelopeV1 where
  parts : ExecutionEnvelopeV1Parts
  valid : parts.validate = .ok ()
  deriving DecidableEq

def ExecutionEnvelopeV1.new (parts : ExecutionEnvelopeV1Parts) :
    Except ExecutionEnvelopeError ExecutionEnvelopeV1 :=
  match h : parts.validate with
  | .ok () => .ok ⟨parts, h⟩
  | .error e => .error e

section Encoding

def FeeCaps.encode (caps : FeeCaps) : Bytes :=
  leBytes 8 caps.maxFeePerWeight.toNat ++ leBytes 8 caps.maxPriorityFeePerWeight.toNat ++
    leBytes 8 caps.maxWeight.toNat

/-- What the signature says of an authorization. -/
def encodeTag (tag : AuthorizationScope × AuthorizationScheme) : Bytes :=
  tag.1.toU8 :: leBytes 2 tag.2.toU16.toNat

def AuthorizationProof.encodeTag (authorization : AuthorizationProof) : Bytes :=
  Execution.encodeTag (authorization.scope, authorization.scheme)

def AuthorizationProof.encode (authorization : AuthorizationProof) : Bytes :=
  authorization.encodeTag ++ encodeItem authorization.proof

namespace ExecutionEnvelopeV1Parts

variable (parts : ExecutionEnvelopeV1Parts)

def encodeCommonPrefix : Bytes :=
  leBytes 2 ENVELOPE_VERSION_V1.toNat ++ leBytes 8 parts.chainId.toNat ++
    [parts.executionDomain.toU8] ++ leBytes 8 parts.validAfterHeight.toNat ++
    leBytes 8 parts.validUntilHeight.toNat ++ parts.principal.toBytes ++
    encodeOption ExecutionAddress.toBytes parts.feePayer ++ parts.feeCaps.encode

def encodePayloadAndHints : Bytes :=
  encodeItem parts.domainPayload ++ encodeOption encodeItem parts.accessHints

def encode : Bytes :=
  parts.encodeCommonPrefix ++ writeVarint parts.authorizations.length ++
    parts.authorizations.flatMap AuthorizationProof.encode ++ parts.encodePayloadAndHints

def signingBytes : Bytes :=
  parts.encodeCommonPrefix ++ writeVarint parts.authorizations.length ++
    parts.authorizations.flatMap AuthorizationProof.encodeTag ++ parts.encodePayloadAndHints

end ExecutionEnvelopeV1Parts

def ExecutionEnvelopeV1.encode (envelope : ExecutionEnvelopeV1) : Bytes := envelope.parts.encode

def ExecutionEnvelopeV1.signingBytes (envelope : ExecutionEnvelopeV1) : Bytes :=
  envelope.parts.signingBytes

end Encoding

section Decoding

abbrev EnvelopeReader := Reader ExecutionEnvelopeError

/-- A reader of primitives, with its errors passed on. -/
def primitive {α : Type} (p : Decoder α) : EnvelopeReader α := p.mapError .primitive

def ExecutionAddressKind.tryFrom (value : UInt8) :
    Except ExecutionAddressError ExecutionAddressKind :=
  if value = 0x01 then .ok .evm
  else if value = 0x02 then .ok .wasm
  else if value = 0x03 then .ok .oregon
  else if value = 0x04 then .ok .system
  else .error (.unknownKind value)

def ExecutionAddress.fromSlice (bytes : Bytes) : Except ExecutionAddressError ExecutionAddress := do
  ensure (bytes.length = 33) (.invalidLength bytes.length)
  let kind ← ExecutionAddressKind.tryFrom (bytes.headD 0)
  ExecutionAddress.new kind (BitVec.ofNat 256 (readLE (bytes.drop 1).reverse))

def readAddress : EnvelopeReader ExecutionAddress := do
  let bytes ← primitive (readBytes 33)
  checked ((ExecutionAddress.fromSlice bytes).mapError .executionAddress)

def readOption {α : Type} (p : EnvelopeReader α) : EnvelopeReader (Option α) :=
  optional (primitive readByte) .invalidOptionFlag p

def readFeeCaps : EnvelopeReader FeeCaps := do
  let maxFeePerWeight ← primitive readU64
  let maxPriorityFeePerWeight ← primitive readU64
  let maxWeight ← primitive readU64
  checked (FeeCaps.new maxFeePerWeight maxPriorityFeePerWeight maxWeight)

def readAuthorization : EnvelopeReader AuthorizationProof := do
  let scope ← primitive readByte
  let scope ← checked (AuthorizationScope.tryFrom scope)
  let scheme ← primitive readU16
  let scheme ← checked (AuthorizationScheme.tryFrom scheme)
  let proof ← primitive (readItem MAX_AUTH_PROOF_BYTES)
  checked (AuthorizationProof.new scope scheme proof)

def ExecutionEnvelopeV1Parts.decodeFrom : EnvelopeReader ExecutionEnvelopeV1Parts := do
  let version ← primitive readU16
  if version ≠ ENVELOPE_VERSION_V1 then throw (.unsupportedVersion version) else do
    let chainId ← primitive readU64
    let domain ← primitive readByte
    let executionDomain ← checked (ExecutionDomain.tryFrom domain)
    let validAfterHeight ← primitive readU64
    let validUntilHeight ← primitive readU64
    let principal ← readAddress
    let feePayer ← readOption readAddress
    let feeCaps ← readFeeCaps
    let authorizationCount ← primitive (readLen MAX_AUTH_PROOFS)
    let authorizations ← times authorizationCount readAuthorization
    let domainPayload ← primitive (readItem MAX_DOMAIN_PAYLOAD_BYTES)
    let accessHints ← readOption (primitive (readItem MAX_ACCESS_HINT_BYTES))
    pure { chainId, executionDomain, validAfterHeight, validUntilHeight, principal, feePayer,
           feeCaps, authorizations, domainPayload, accessHints }

def ExecutionEnvelopeV1.decode (bytes : Bytes) :
    Except ExecutionEnvelopeError ExecutionEnvelopeV1 := do
  ensure (bytes.length ≤ MAX_ENVELOPE_BYTES) .envelopeTooLarge
  let r ← ExecutionEnvelopeV1Parts.decodeFrom ⟨bytes, 0⟩
  ensure (r.2.rest = []) (.primitive .trailingBytes)
  ExecutionEnvelopeV1.new r.1

end Decoding

end Oregon.Execution
