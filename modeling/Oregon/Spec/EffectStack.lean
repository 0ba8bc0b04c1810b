import Oregon.Lib.Stateful
import Oregon.Spec.Journal
import Oregon.Spec.Runtime

/-! Execution events, the limits and errors of the coordinator, and the stack of effects: the
events and return bytes of each open call, next to the frames of the journal. The
effects of a child go to its parent, or are dropped. -/

namespace Oregon.Execution

open Lib

def MAX_EXECUTION_EVENT_TOPICS_V1 : ℕ := 4
def MAX_EXECUTION_EVENT_DATA_BYTES_V1 : ℕ := 65536
def MAX_EXECUTION_EVENTS_V1 : ℕ := 256
inductive ExecutionReceiptError where
  | tooManyEventTopics
  | eventDataTooLarge
  | tooManyEvents
  | receiptDomainInStateEffects
  | invalidEffectDomain
  | invalidEffectScheme
  | duplicateEffectDomain
  | nonCanonicalEffectOrder
  | tooManyStateEffects
  | invalidReceiptLength (length : ℕ)
  | unsupportedVersion (version : ℕ)
  | unknownOutcome (outcome : UInt8)
  | unknownExecutionDomain (domain : UInt8)
  | invalidTrapCode
  | feeReceiptMismatch
  | returnDataTooLarge
  | primitive (e : PrimitiveError)
  | address (e : ExecutionAddressError)
  deriving DecidableEq, Repr

structure ExecutionEventV1 where
  emitter : ExecutionAddress
  topics : List Hash256
  data : Bytes
  topics_le : topics.length ≤ MAX_EXECUTION_EVENT_TOPICS_V1
  data_le : data.length ≤ MAX_EXECUTION_EVENT_DATA_BYTES_V1
  deriving DecidableEq

def ExecutionEventV1.new (emitter : ExecutionAddress) (topics : List Hash256) (data : Bytes) :
    Except ExecutionReceiptError ExecutionEventV1 :=
  if htopics : MAX_EXECUTION_EVENT_TOPICS_V1 < topics.length then .error .tooManyEventTopics
  else if hdata : MAX_EXECUTION_EVENT_DATA_BYTES_V1 < data.length then .error .eventDataTooLarge
  else .ok ⟨emitter, topics, data, Nat.not_lt.mp htopics, Nat.not_lt.mp hdata⟩

section

variable [Crypto]

end

inductive CoordinatorError where
  | invalidLimits
  | unsupportedHostChargeScheduleVersion (version : ℕ)
  | hostChargeOverflow
  | invalidRuntimeTarget
  | duplicateRuntimeTarget
  | insufficientExecutionFunding
  | fundingContextMismatch
  | runtimeContextMismatch
  | fundingCapabilityMismatch
  | fundingCapabilityAmountTooSmall
  | escrowOpenFailed
  | feeSettlementFailed
  | fatalExecution
  | executionDomainMismatch
  | unboundExecutionDomain
  | rootFrameLifecycle
  | callDepthExceeded
  | frameLimitExceeded
  | eventLimitExceeded
  | eventDataTooLarge
  | eventTopicsTooLarge
  | effectBytesLimitExceeded
  | accountingInvariant
  | phaseAReceiptDomain
  | invalidReceiptSnapshotDomain
  | duplicateReceipt
  | receiptPrimitive (e : ExecutionReceiptError)
  | receiptState (e : JournalError)
  deriving DecidableEq, Repr

def MAX_COORDINATOR_EFFECT_BYTES_V1 : ℕ := 2097152
def MAX_COORDINATOR_FRAMES_V1 : ℕ := 4096

/-- Limits that are positive and within the ceilings. -/
structure CoordinatorLimitsV1 where
  maxCallDepth : ℕ
  maxEvents : ℕ
  maxEffectBytes : ℕ
  valid : ¬ (maxCallDepth = 0 ∨ maxEvents = 0 ∨ maxEffectBytes = 0 ∨
    MAX_RUNTIME_CALL_DEPTH < maxCallDepth ∨ MAX_EXECUTION_EVENTS_V1 < maxEvents ∨
    MAX_COORDINATOR_EFFECT_BYTES_V1 < maxEffectBytes)
  deriving DecidableEq, Repr

def CoordinatorLimitsV1.new (maxCallDepth maxEvents maxEffectBytes : ℕ) :
    Except CoordinatorError CoordinatorLimitsV1 :=
  if h : maxCallDepth = 0 ∨ maxEvents = 0 ∨ maxEffectBytes = 0 ∨
      MAX_RUNTIME_CALL_DEPTH < maxCallDepth ∨ MAX_EXECUTION_EVENTS_V1 < maxEvents ∨
      MAX_COORDINATOR_EFFECT_BYTES_V1 < maxEffectBytes then .error .invalidLimits
  else .ok ⟨maxCallDepth, maxEvents, maxEffectBytes, h⟩

inductive CoordinatorTerminalV1 where
  | running
  | resourceExhausted
  | fatal
  deriving DecidableEq, Repr

structure EffectFrameV1 where
  events : List ExecutionEventV1
  retainedEventBytes : ℕ
  retainedReturnBytes : ℕ

def EffectFrameV1.default : EffectFrameV1 := ⟨[], 0, 0⟩

def EffectFrameV1.retainedBytes (frame : EffectFrameV1) : Except CoordinatorError ℕ :=
  orElse (checkedAdd frame.retainedEventBytes frame.retainedReturnBytes) .accountingInvariant

/-- The frames are listed from the newest to the root. -/
structure EffectStackV1 where
  frames : List EffectFrameV1
  limits : CoordinatorLimitsV1
  totalFramesCreated : ℕ
  liveEventCount : ℕ
  liveRetainedBytes : ℕ

namespace EffectStackV1

def new (limits : CoordinatorLimitsV1) : EffectStackV1 :=
  { frames := [.default], limits, totalFramesCreated := 1, liveEventCount := 0,
    liveRetainedBytes := 0 }

/-- The operations check before they change, so they change the stack only when they return
one. -/
def begin (stack : EffectStackV1) : Except CoordinatorError EffectStackV1 := do
  let nextDepth ← orElse (checkedAdd stack.frames.length 1) .callDepthExceeded
  ensure (nextDepth ≤ stack.limits.maxCallDepth) .callDepthExceeded
  let nextTotal ← orElse (checkedAdd stack.totalFramesCreated 1) .frameLimitExceeded
  ensure (nextTotal ≤ MAX_COORDINATOR_FRAMES_V1) .frameLimitExceeded
  pure { stack with frames := .default :: stack.frames, totalFramesCreated := nextTotal }

def commit (stack : EffectStackV1) : Except CoordinatorError EffectStackV1 := do
  ensure (stack.frames.length ≠ 1) .rootFrameLifecycle
  match stack.frames with
  | child :: parent :: below => do
    let nextParentEventBytes ←
      orElse (checkedAdd parent.retainedEventBytes child.retainedEventBytes) .accountingInvariant
    let nextParentReturnBytes ←
      orElse (checkedAdd parent.retainedReturnBytes child.retainedReturnBytes) .accountingInvariant
    let parent := { events := parent.events ++ child.events
                    retainedEventBytes := nextParentEventBytes
                    retainedReturnBytes := nextParentReturnBytes }
    pure { stack with frames := parent :: below }
  | _ => throw .accountingInvariant

def revert (stack : EffectStackV1) : Except CoordinatorError EffectStackV1 := do
  ensure (stack.frames.length ≠ 1) .rootFrameLifecycle
  match stack.frames with
  | [] => throw .accountingInvariant
  | child :: below => do
    let childBytes ← child.retainedBytes
    let nextEventCount ←
      orElse (checkedSub stack.liveEventCount child.events.length) .accountingInvariant
    let nextRetainedBytes ←
      orElse (checkedSub stack.liveRetainedBytes childBytes) .accountingInvariant
    pure { stack with frames := below, liveEventCount := nextEventCount,
                      liveRetainedBytes := nextRetainedBytes }

def reserveEvent (stack : EffectStackV1) (dataBytes : ℕ) :
    Except CoordinatorError EffectStackV1 := do
  let nextCount ← orElse (checkedAdd stack.liveEventCount 1) .eventLimitExceeded
  ensure (nextCount ≤ stack.limits.maxEvents) .eventLimitExceeded
  let nextBytes ← orElse (checkedAdd stack.liveRetainedBytes dataBytes) .effectBytesLimitExceeded
  ensure (nextBytes ≤ stack.limits.maxEffectBytes) .effectBytesLimitExceeded
  pure { stack with liveEventCount := nextCount, liveRetainedBytes := nextBytes }

/-- Adds an event to the newest frame. -/
def addEvent (stack : EffectStackV1) (event : ExecutionEventV1) :
    Except CoordinatorError EffectStackV1 :=
  match stack.frames with
  | [] => throw .accountingInvariant
  | frame :: below => do
    let retainedEventBytes ←
      orElse (checkedAdd frame.retainedEventBytes event.data.length) .accountingInvariant
    let frame := { frame with events := frame.events ++ [event], retainedEventBytes }
    pure { stack with frames := frame :: below }

/-- The event is counted before it is added. -/
def pushEvent (event : ExecutionEventV1) : Stateful EffectStackV1 CoordinatorError Unit := do
  check (ensure (event.topics.length ≤ MAX_EXECUTION_EVENT_TOPICS_V1) .eventTopicsTooLarge)
  check (ensure (event.data.length ≤ MAX_EXECUTION_EVENT_DATA_BYTES_V1) .eventDataTooLarge)
  update fun stack => stack.reserveEvent event.data.length
  update fun stack => stack.addEvent event

def pushEventParts (emitter : ExecutionAddress) (topics : List Hash256) (data : Bytes) :
    Stateful EffectStackV1 CoordinatorError Unit := do
  check (ensure (topics.length ≤ MAX_EXECUTION_EVENT_TOPICS_V1) .eventTopicsTooLarge)
  check (ensure (data.length ≤ MAX_EXECUTION_EVENT_DATA_BYTES_V1) .eventDataTooLarge)
  update fun stack => stack.reserveEvent data.length
  let event ←
    check ((ExecutionEventV1.new emitter topics data).mapError fun _ => .accountingInvariant)
  update fun stack => stack.addEvent event

def retainReturnBytes (stack : EffectStackV1) (bytes : ℕ) :
    Except CoordinatorError EffectStackV1 := do
  let nextLive ← orElse (checkedAdd stack.liveRetainedBytes bytes) .effectBytesLimitExceeded
  ensure (nextLive ≤ stack.limits.maxEffectBytes) .effectBytesLimitExceeded
  match stack.frames with
  | [] => throw .accountingInvariant
  | frame :: below => do
    let nextFrame ← orElse (checkedAdd frame.retainedReturnBytes bytes) .accountingInvariant
    pure { stack with frames := { frame with retainedReturnBytes := nextFrame } :: below,
                      liveRetainedBytes := nextLive }

end EffectStackV1

end Oregon.Execution
