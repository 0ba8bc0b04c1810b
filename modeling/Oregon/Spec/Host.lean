import Oregon.Spec.Accounting
import Oregon.Spec.Weight

/-! The host that a backend runs on. Every operation first looks at the terminal state, then
checks its arguments, then charges for the work, then does it. A charge that fails
ends the transaction as exhausted, a failure of the coordinator itself ends it as
fatal; both are remembered whatever the backend makes of the signal. -/

namespace Oregon.Execution

open Lib ContractState

/-- What a host operation reads and changes. -/
structure HostState where
  journal : ExecutionJournalV1
  meter : WeightMeter
  effects : EffectStackV1
  terminal : CoordinatorTerminalV1

/-- An operation of the host; the state stays when it signals. -/
abbrev Host := Stateful HostState RuntimeHostSignalV1

def HOST_CHARGE_SCHEDULE_VERSION_V1 : ℕ := 1

structure HostChargeScheduleV1 where
  stateReadBase : ℕ
  stateReadKeyByte : ℕ
  stateReadCopyByte : ℕ
  stateWriteBase : ℕ
  stateWriteKeyByte : ℕ
  stateWriteValueByte : ℕ
  stateDeleteBase : ℕ
  stateDeleteKeyByte : ℕ
  eventBase : ℕ
  eventTopic : ℕ
  eventDataByte : ℕ
  nestedCallBase : ℕ
  nestedCallInputByte : ℕ
  nestedCallReturnCopyByte : ℕ
  deriving DecidableEq, Repr

/-- The schedule is made from parts of the supported version. -/
def HostChargeScheduleV1.new (version : ℕ) (parts : HostChargeScheduleV1) :
    Except CoordinatorError HostChargeScheduleV1 := do
  ensure (version = HOST_CHARGE_SCHEDULE_VERSION_V1) (.unsupportedHostChargeScheduleVersion version)
  pure parts

/-- Computed wide; a total that is too wide for that fails in the same way as one that does
not fit into sixty-four bits. -/
def checkedCost (fixed : ℕ) (terms : List (ℕ × ℕ)) : Except CoordinatorError ℕ :=
  orElse (narrow (terms.foldl (fun total (coefficient, count) => total + coefficient * count) fixed))
    .hostChargeOverflow

namespace HostChargeScheduleV1

variable (charges : HostChargeScheduleV1)

def stateReadPreCost (keyLen : ℕ) : Except CoordinatorError ℕ :=
  checkedCost charges.stateReadBase [(charges.stateReadKeyByte, keyLen)]

def stateReadCopyCost (valueLen : ℕ) : Except CoordinatorError ℕ :=
  checkedCost 0 [(charges.stateReadCopyByte, valueLen)]

def stateWriteCost (keyLen valueLen : ℕ) : Except CoordinatorError ℕ :=
  checkedCost charges.stateWriteBase
    [(charges.stateWriteKeyByte, keyLen), (charges.stateWriteValueByte, valueLen)]

def stateDeleteCost (keyLen : ℕ) : Except CoordinatorError ℕ :=
  checkedCost charges.stateDeleteBase [(charges.stateDeleteKeyByte, keyLen)]

def eventCost (topicCount dataLen : ℕ) : Except CoordinatorError ℕ :=
  checkedCost charges.eventBase
    [(charges.eventTopic, topicCount), (charges.eventDataByte, dataLen)]

def nestedCallPreCost (inputLen : ℕ) : Except CoordinatorError ℕ :=
  checkedCost charges.nestedCallBase [(charges.nestedCallInputByte, inputLen)]

def nestedCallReturnCost (returnLen : ℕ) : Except CoordinatorError ℕ :=
  checkedCost 0 [(charges.nestedCallReturnCopyByte, returnLen)]

end HostChargeScheduleV1

def WASM_STORAGE_PREFIX_V1 : Bytes := ascii "wasm/v1/storage/"
def EXECUTION_ADDRESS_BYTES : ℕ := 33

def scopedWasmStorageKey (target : ExecutionAddress) (localKey : Bytes) :
    Except RuntimeTrapCodeV1 Bytes := do
  ensure (target.kind = .wasm) .stateAccessDenied
  ensure (WASM_STORAGE_PREFIX_V1.length + EXECUTION_ADDRESS_BYTES + localKey.length ≤
    MAX_STATE_KEY_BYTES) .invalidHostInput
  pure (WASM_STORAGE_PREFIX_V1 ++ target.toBytes ++ localKey)

def ensureRunning : Host Unit := do
  let s ← get
  check (ensure (s.terminal = .running) .abort)

def latch {α : Type} (terminal : CoordinatorTerminalV1) : Host α := do
  modify fun s => { s with terminal }
  throw .abort

def latchFatal {α : Type} : Host α := latch .fatal

def trapWith {α : Type} (x : Except RuntimeTrapCodeV1 α) : Host α := check (x.mapError .trap)

def checkedHostCost (cost : Except CoordinatorError ℕ) : Host ℕ :=
  match cost with
  | .ok value => pure value
  | .error _ => latchFatal

/-- A charge on the meter; one that fails exhausts the transaction. -/
def chargeMeter (charge : WeightMeter → Except ResourceError Unit × WeightMeter) : Host Unit := do
  let s ← get
  let (result, meter) := charge s.meter
  modify fun s => { s with meter }
  match result with
  | .ok () => pure ()
  | .error _ => latch .resourceExhausted

def chargeCommonWeight (weight : ℕ) : Host Unit := do
  ensureRunning
  chargeMeter fun meter => meter.chargeCommon weight

/-- A part of the journal's work on the host state: how it ended is for the caller to look at. -/
def onJournal {ε α : Type} (x : Stateful ExecutionJournalV1 ε α) : Host (Except ε α) :=
  within HostState.journal (fun s journal => { s with journal }) x

def onEffects {α : Type} (x : Stateful EffectStackV1 CoordinatorError α) :
    Host (Except CoordinatorError α) :=
  within HostState.effects (fun s effects => { s with effects }) x

section

variable (charges : HostChargeScheduleV1) (context : RuntimeCallContextV1)

def chargeVmWeight (units : ℕ) : Host Unit := do
  ensureRunning
  match context.parts.executionDomain with
  | .evm => chargeMeter fun meter => meter.charge .evm units
  | .wasm => chargeMeter fun meter => meter.charge .wasm units
  | .native | .system => latchFatal

def mapEffectError {α : Type} (error : CoordinatorError) : Host α :=
  match error with
  | .eventLimitExceeded | .eventDataTooLarge | .eventTopicsTooLarge | .effectBytesLimitExceeded =>
    throw (.trap .eventLimitExceeded)
  | _ => latchFatal

def requireWasmState : Host Unit :=
  match context.parts.executionDomain with
  | .wasm => pure ()
  | .evm => throw (.trap .stateAccessDenied)
  | .native | .system => latchFatal

def stateGet [Crypto] (key : Bytes) : Host (Option Bytes) := do
  ensureRunning
  requireWasmState context
  let scopedKey ← trapWith (scopedWasmStorageKey context.parts.target key)
  let cost ← checkedHostCost (charges.stateReadPreCost key.length)
  chargeCommonWeight cost
  let s ← get
  match s.journal.read .wasm scopedKey with
  | .error _ => latchFatal
  | .ok none => pure none
  | .ok (some bytes) => do
    let copyCost ← checkedHostCost (charges.stateReadCopyCost bytes.length)
    chargeCommonWeight copyCost
    pure (some bytes)

/-- A write to the state of the target; the journal refusing it is fatal. -/
def writeState (scopedKey : Bytes) (value : JournalValue) : Host Unit := do
  let result ← onJournal (update fun journal => journal.stageWrite .wasm scopedKey value)
  match result with
  | .ok () => pure ()
  | .error _ => latchFatal

def statePut (key value : Bytes) : Host Unit := do
  ensureRunning
  requireWasmState context
  trapWith (ensure (value.length ≤ MAX_STATE_VALUE_BYTES) .invalidHostInput)
  let scopedKey ← trapWith (scopedWasmStorageKey context.parts.target key)
  trapWith (ensure (context.parts.readOnly = false) .readOnlyViolation)
  let cost ← checkedHostCost (charges.stateWriteCost key.length value.length)
  chargeCommonWeight cost
  writeState scopedKey (some value)

def stateDelete (key : Bytes) : Host Unit := do
  ensureRunning
  requireWasmState context
  let scopedKey ← trapWith (scopedWasmStorageKey context.parts.target key)
  trapWith (ensure (context.parts.readOnly = false) .readOnlyViolation)
  let cost ← checkedHostCost (charges.stateDeleteCost key.length)
  chargeCommonWeight cost
  writeState scopedKey none

def emitEvent (topics : List Hash256) (data : Bytes) : Host Unit := do
  ensureRunning
  trapWith (ensure (¬ (MAX_EXECUTION_EVENT_TOPICS_V1 < topics.length ∨
    MAX_EXECUTION_EVENT_DATA_BYTES_V1 < data.length)) .eventLimitExceeded)
  let cost ← checkedHostCost (charges.eventCost topics.length data.length)
  chargeCommonWeight cost
  let result ← onEffects (EffectStackV1.pushEventParts context.parts.target topics data)
  match result with
  | .ok () => pure ()
  | .error error => mapEffectError error

/-- A nested call is charged before it is executed, and what it returns when it is copied. -/
def hostCall (execute : RuntimeCallSpecV1 → Host RuntimeCallResultV1) (spec : RuntimeCallSpecV1) :
    Host RuntimeCallResultV1 := do
  let cost ← checkedHostCost (charges.nestedCallPreCost spec.input.length)
  chargeCommonWeight cost
  let result ← execute spec
  match result.returnData with
  | none => pure result
  | some returnData => do
    let copyCost ← checkedHostCost (charges.nestedCallReturnCost returnData.length)
    chargeCommonWeight copyCost
    pure result

/-- The host for `context`, where `execute` executes a nested call. -/
def hostOp [Crypto] (execute : RuntimeCallSpecV1 → Host RuntimeCallResultV1) :
    (op : RuntimeHostOp) → Host op.Answer
  | .stateGet key => stateGet charges context key
  | .statePut key value => statePut charges context key value
  | .stateDelete key => stateDelete charges context key
  | .emitEvent topics data => emitEvent charges context topics data
  | .call spec => hostCall charges execute spec
  | .chargeVmUnits units => chargeVmWeight context units
  | .chargeCommon units => chargeCommonWeight units

end

/-- Runs a backend on a host. -/
def RuntimeProgram.run (host : (op : RuntimeHostOp) → Host op.Answer) :
    RuntimeProgram → Stateful HostState RuntimeBackendFailureV1 RuntimeCallResultV1
  | .done result => check result
  | .ask op next => do
    let answer ← attempt (host op)
    (next answer).run host

end Oregon.Execution
