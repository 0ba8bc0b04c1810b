import Oregon.Spec.Fees

/-! The interface between the coordinator and the virtual machines: calls and their contexts,
results, and the operations of the host. A backend is deterministic code that the
coordinator does not know: it ends, or it asks the host for an operation and goes on
with the answer, whatever that is. -/

namespace Oregon.Execution

open Lib

inductive ExecutionDomain where
  | native
  | evm
  | wasm
  | system
  deriving DecidableEq, Repr

def ExecutionDomain.toU8 : ExecutionDomain → UInt8
  | native => 0x10
  | evm => 0x11
  | wasm => 0x12
  | system => 0x13

def MAX_RUNTIME_CALL_DEPTH : ℕ := 64
def MAX_RUNTIME_CALL_INPUT_BYTES : ℕ := 262144
def MAX_RUNTIME_RETURN_DATA_BYTES : ℕ := 262144

inductive RuntimeAbiError where
  | invalidCallTarget
  | callInputTooLarge
  | invalidCallDepth
  | contextDomainTargetMismatch
  | returnDataTooLarge
  deriving DecidableEq, Repr

structure RuntimeCallSpecV1 where
  target : ExecutionAddress
  value : ℕ
  readOnly : Bool
  input : Bytes
  input_le : input.length ≤ MAX_RUNTIME_CALL_INPUT_BYTES
  callable : target.kind = .evm ∨ target.kind = .wasm
  deriving DecidableEq

def RuntimeCallSpecV1.new (target : ExecutionAddress) (value : ℕ) (readOnly : Bool)
    (input : Bytes) : Except RuntimeAbiError RuntimeCallSpecV1 :=
  if hinput : MAX_RUNTIME_CALL_INPUT_BYTES < input.length then .error .callInputTooLarge
  else if htarget : target.kind = .evm ∨ target.kind = .wasm then
    .ok ⟨target, value, readOnly, input, Nat.not_lt.mp hinput, htarget⟩
  else .error .invalidCallTarget

structure RuntimeCallContextV1Parts where
  chainId : ℕ
  height : ℕ
  parentBlockHash : Hash256
  txid : Hash256
  principal : ExecutionAddress
  caller : ExecutionAddress
  target : ExecutionAddress
  executionDomain : ExecutionDomain
  depth : ℕ
  readOnly : Bool
  transferredValue : ℕ
  deriving DecidableEq, Repr

/-- The target belongs to the domain that executes it. -/
def RuntimeCallContextV1Parts.targetMatchesDomain (parts : RuntimeCallContextV1Parts) : Prop :=
  (parts.executionDomain = .evm ∧ parts.target.kind = .evm) ∨
    (parts.executionDomain = .wasm ∧ parts.target.kind = .wasm)

instance (parts : RuntimeCallContextV1Parts) : Decidable parts.targetMatchesDomain :=
  inferInstanceAs (Decidable (_ ∨ _))

structure RuntimeCallContextV1 where
  parts : RuntimeCallContextV1Parts
  depth_mem : 1 ≤ parts.depth ∧ parts.depth ≤ MAX_RUNTIME_CALL_DEPTH
  domain_matches : parts.targetMatchesDomain
  deriving DecidableEq

def RuntimeCallContextV1.fromTrustedParts (parts : RuntimeCallContextV1Parts) :
    Except RuntimeAbiError RuntimeCallContextV1 :=
  if hdepth : 1 ≤ parts.depth ∧ parts.depth ≤ MAX_RUNTIME_CALL_DEPTH then
    if hdomain : parts.targetMatchesDomain then .ok ⟨parts, hdepth, hdomain⟩
    else .error .contextDomainTargetMismatch
  else .error .invalidCallDepth

inductive RuntimeTrapCodeV1 where
  | backendDeterministic
  | invalidCallTarget
  | stateAccessDenied
  | readOnlyViolation
  | callDepthExceeded
  | callInputTooLarge
  | returnDataTooLarge
  | eventLimitExceeded
  | attachedValueTransferFailed
  | unsupportedOperation
  | invalidHostInput
  deriving DecidableEq, Repr

inductive RuntimeCallResultV1 where
  | success (returnData : Bytes)
  | revert (returnData : Bytes)
  | trap (code : RuntimeTrapCodeV1)
  deriving DecidableEq, Repr

def RuntimeCallResultV1.returnData : RuntimeCallResultV1 → Option Bytes
  | success data | revert data => some data
  | trap _ => none

def RuntimeCallResultV1.validate (result : RuntimeCallResultV1) : Except RuntimeAbiError Unit :=
  ensure (∀ data ∈ result.returnData, data.length ≤ MAX_RUNTIME_RETURN_DATA_BYTES)
    .returnDataTooLarge

inductive RuntimeHostSignalV1 where
  | trap (code : RuntimeTrapCodeV1)
  | abort
  deriving DecidableEq, Repr

inductive RuntimeBackendFailureV1 where
  | fatal
  deriving DecidableEq, Repr

/-- The operations of the host. -/
inductive RuntimeHostOp where
  | stateGet (key : Bytes)
  | statePut (key value : Bytes)
  | stateDelete (key : Bytes)
  | emitEvent (topics : List Hash256) (data : Bytes)
  | call (spec : RuntimeCallSpecV1)
  | chargeVmUnits (units : ℕ)
  | chargeCommon (units : ℕ)

/-- What an operation returns when it returns. -/
def RuntimeHostOp.Answer : RuntimeHostOp → Type
  | stateGet _ => Option Bytes
  | call _ => RuntimeCallResultV1
  | statePut _ _ | stateDelete _ | emitEvent _ _ | chargeVmUnits _ | chargeCommon _ => Unit

/-- What a backend does from some point on. -/
inductive RuntimeProgram where
  | done (result : Except RuntimeBackendFailureV1 RuntimeCallResultV1)
  | ask (op : RuntimeHostOp) (next : Except RuntimeHostSignalV1 op.Answer → RuntimeProgram)

/-- A backend reads its context from the host. -/
abbrev RuntimeBackendV1 := RuntimeCallContextV1 → RuntimeProgram

end Oregon.Execution
