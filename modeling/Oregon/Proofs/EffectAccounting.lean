import Oregon.Lib.Frames
import Oregon.Sanity.EffectStack

/-! The counters of the effect stack, after any operations on it, failed ones included: they are
the true counts of what the open frames hold, so a frame that is dropped gives back what was taken
for it. -/

namespace Oregon.Execution

open Lib

/-- The operations of the effect stack. -/
inductive EffectOp where
  | begin
  | commit
  | revert
  | pushEvent (event : ExecutionEventV1)
  | pushEventParts (emitter : ExecutionAddress) (topics : List Hash256) (data : Bytes)
  | retainReturnBytes (bytes : ℕ)

def EffectOp.run : EffectOp → Stateful EffectStackV1 CoordinatorError Unit
  | begin => update EffectStackV1.begin
  | commit => update EffectStackV1.commit
  | revert => update EffectStackV1.revert
  | pushEvent event => EffectStackV1.pushEvent event
  | pushEventParts emitter topics data => EffectStackV1.pushEventParts emitter topics data
  | retainReturnBytes bytes => update fun stack => stack.retainReturnBytes bytes

/-- The stack that an operation leaves. -/
def EffectOp.next (op : EffectOp) (stack : EffectStackV1) : EffectStackV1 :=
  (perform op.run stack).2

/-- The stacks that operations lead to, whether they fail or not. -/
inductive EffectsReached (limits : CoordinatorLimitsV1) : EffectStackV1 → Prop where
  | new : EffectsReached limits (.new limits)
  | step {stack} (op : EffectOp) : EffectsReached limits stack → EffectsReached limits (op.next stack)

/-- The bytes of the data of some events. -/
def dataBytes (events : List ExecutionEventV1) : ℕ :=
  (events.map fun event => event.data.length).sum

/-- What an operation that does not fail does to the frames. -/
inductive FrameStep : List EffectFrameV1 → List EffectFrameV1 → Prop where
  | opened (frames) : FrameStep frames (.default :: frames)
  | merged (child parent : EffectFrameV1) (rest) :
      FrameStep (child :: parent :: rest) (parent.merged child :: rest)
  | dropped (child parent : EffectFrameV1) (rest) :
      FrameStep (child :: parent :: rest) (parent :: rest)
  | emitted (frame : EffectFrameV1) (event rest) :
      FrameStep (frame :: rest) (frame.emit event :: rest)
  | retained (frame : EffectFrameV1) (bytes rest) : FrameStep (frame :: rest)
      ({ frame with retainedReturnBytes := frame.retainedReturnBytes + bytes } :: rest)

/-- An operation fails and changes nothing, or goes on to a stack in order. -/
def EffectOutcome (stack : EffectStackV1) (ended : Except CoordinatorError Unit × EffectStackV1) :
    Prop :=
  (∃ e, e ≠ .accountingInvariant ∧ ended = (.error e, stack)) ∨
    ∃ stack', stack'.Inv ∧ stack'.limits = stack.limits ∧ FrameStep stack.frames stack'.frames ∧
      ended = (.ok (), stack')

variable {limits : CoordinatorLimitsV1} {stack stack' : EffectStackV1}

theorem EffectOutcome.failed {e : CoordinatorError} (h : e ≠ .accountingInvariant) :
    EffectOutcome stack (.error e, stack) :=
  Or.inl ⟨e, h, rfl⟩

theorem EffectOutcome.done (hinv : stack'.Inv) (hlimits : stack'.limits = stack.limits)
    (hstep : FrameStep stack.frames stack'.frames) : EffectOutcome stack (.ok (), stack') :=
  Or.inr ⟨stack', hinv, hlimits, hstep, rfl⟩

theorem begin_outcome (hinv : stack.Inv) : EffectOutcome stack (perform EffectOp.begin.run stack) := by
  rw [EffectOp.run]
  cases h : stack.begin with
  | ok stack' =>
    obtain ⟨hinv', hlimits, hframes⟩ := begin_ok hinv h
    rw [perform_update_ok h]
    exact .done hinv' hlimits (hframes ▸ .opened _)
  | error e =>
    rw [perform_update_error h]
    refine .failed ?_
    simp only [EffectStackV1.begin, bind_eq_error, orElse_eq_error, ensure_eq_error,
      pure, Except.pure, reduceCtorEq, and_false, exists_false, or_false] at h
    rcases h with h | ⟨_, -, h | ⟨_, -, h | ⟨_, -, h⟩⟩⟩ <;> simp [← h.2]

theorem fold_outcome (hinv : stack.Inv)
    {f : EffectStackV1 → Except CoordinatorError EffectStackV1}
    (hroot : stack.frames.length = 1 → f stack = .error .rootFrameLifecycle)
    (hfold : ∀ child parent rest, stack.frames = child :: parent :: rest → ∃ stack',
      f stack = .ok stack' ∧ stack'.Inv ∧ stack'.limits = stack.limits ∧
        FrameStep stack.frames stack'.frames) :
    EffectOutcome stack (perform (update f) stack) := by
  obtain ⟨child, below, hframes⟩ := List.exists_cons_of_ne_nil hinv.frames
  cases below with
  | nil =>
    rw [perform_update_error (hroot (by rw [hframes]; rfl))]
    exact .failed (by decide)
  | cons parent rest =>
    obtain ⟨stack', hok, hinv', hlimits, hstep⟩ := hfold child parent rest hframes
    rw [perform_update_ok hok]
    exact .done hinv' hlimits hstep

theorem commit_outcome (hinv : stack.Inv) :
    EffectOutcome stack (perform EffectOp.commit.run stack) := by
  refine fold_outcome hinv (fun hroot => ?_) fun child parent rest hframes => ?_
  · rw [EffectStackV1.commit, ensure_error (by simp [hroot]), error_bind]
  · exact ⟨_, commit_ok hinv hframes, hinv.merged hframes, rfl, hframes ▸ .merged child parent rest⟩

theorem revert_outcome (hinv : stack.Inv) :
    EffectOutcome stack (perform EffectOp.revert.run stack) := by
  refine fold_outcome hinv (fun hroot => ?_) fun child parent rest hframes => ?_
  · rw [EffectStackV1.revert, ensure_error (by simp [hroot]), error_bind]
  · exact ⟨_, revert_ok hinv hframes, hinv.below hframes, rfl, hframes ▸ .dropped child parent rest⟩

theorem isEventLimit_ne {e : CoordinatorError} (h : e.isEventLimit) : e ≠ .accountingInvariant := by
  rcases h with rfl | rfl | rfl | rfl <;> decide

theorem pushEventParts_outcome (hinv : stack.Inv) (emitter : ExecutionAddress)
    (topics : List Hash256) (data : Bytes) :
    EffectOutcome stack (perform (EffectStackV1.pushEventParts emitter topics data) stack) := by
  obtain ⟨frame, rest, hframes⟩ := List.exists_cons_of_ne_nil hinv.frames
  rcases pushEventParts_cases hinv hframes emitter topics data with
    ⟨e, hlimit, h⟩ | ⟨event, -, hinv', h⟩
  · rw [h]
    exact .failed (isEventLimit_ne hlimit)
  · rw [h]
    exact .done hinv' rfl (hframes ▸ .emitted frame event rest)

theorem pushEvent_eq (event : ExecutionEventV1) (stack : EffectStackV1) :
    perform (EffectStackV1.pushEvent event) stack =
      perform (EffectStackV1.pushEventParts event.emitter event.topics event.data) stack := by
  have hnew : ExecutionEventV1.new event.emitter event.topics event.data = .ok event := by
    rw [ExecutionEventV1.new, dif_neg (Nat.not_lt.mpr event.topics_le),
      dif_neg (Nat.not_lt.mpr event.data_le)]
  simp only [EffectStackV1.pushEvent, EffectStackV1.pushEventParts, perform_bind, perform_check,
    ensure_ok event.topics_le, ensure_ok event.data_le, hnew, Except.mapError]

theorem retainReturnBytes_outcome (hinv : stack.Inv) (bytes : ℕ) :
    EffectOutcome stack (perform (EffectOp.retainReturnBytes bytes).run stack) := by
  obtain ⟨frame, rest, hframes⟩ := List.exists_cons_of_ne_nil hinv.frames
  rw [EffectOp.run]
  by_cases hle : stack.liveRetainedBytes + bytes ≤ stack.limits.maxEffectBytes
  · rw [perform_update_ok (retainReturnBytes_ok hinv hframes hle)]
    exact .done (hinv.retained hframes hle) rfl (hframes ▸ .retained frame bytes rest)
  · rw [perform_update_error (retainReturnBytes_error hle)]
    exact .failed (by decide)

theorem EffectOp.outcome (hinv : stack.Inv) (op : EffectOp) :
    EffectOutcome stack (perform op.run stack) := by
  cases op with
  | begin => exact begin_outcome hinv
  | commit => exact commit_outcome hinv
  | revert => exact revert_outcome hinv
  | pushEvent event => grind [EffectOp.run, pushEvent_eq, pushEventParts_outcome]
  | pushEventParts emitter topics data => exact pushEventParts_outcome hinv emitter topics data
  | retainReturnBytes bytes => exact retainReturnBytes_outcome hinv bytes

/-- A frame counts the data of its events. -/
def EffectFrameV1.Counted (frame : EffectFrameV1) : Prop :=
  frame.retainedEventBytes = dataBytes frame.events

theorem FrameStep.counted {frames frames' : List EffectFrameV1} (h : FrameStep frames frames')
    (hframes : ∀ frame ∈ frames, frame.Counted) : ∀ frame ∈ frames', frame.Counted := by
  cases h with
  | opened => exact List.forall_mem_cons.mpr ⟨rfl, hframes⟩
  | merged child parent rest =>
    obtain ⟨hchild, hrest⟩ := List.forall_mem_cons.mp hframes
    obtain ⟨hparent, hrest⟩ := List.forall_mem_cons.mp hrest
    grind [EffectFrameV1.Counted, dataBytes, EffectFrameV1.merged]
  | dropped child parent rest => exact (List.forall_mem_cons.mp hframes).2
  | emitted frame event rest =>
    obtain ⟨hframe, hrest⟩ := List.forall_mem_cons.mp hframes
    grind [EffectFrameV1.Counted, dataBytes, EffectFrameV1.emit]
  | retained frame bytes rest =>
    obtain ⟨hframe, hrest⟩ := List.forall_mem_cons.mp hframes
    exact List.forall_mem_cons.mpr ⟨hframe, hrest⟩

theorem EffectsReached.inv (h : EffectsReached limits stack) :
    stack.Inv ∧ stack.limits = limits ∧ ∀ frame ∈ stack.frames, frame.Counted := by
  induction h with
  | new =>
    refine ⟨effects_new_inv limits, rfl, ?_⟩
    exact List.forall_mem_cons.mpr ⟨rfl, List.forall_mem_nil _⟩
  | @step stack op _ ih =>
    obtain ⟨hinv, hlimits, hcounted⟩ := ih
    rw [EffectOp.next]
    rcases op.outcome hinv with ⟨e, -, h⟩ | ⟨stack', hinv', hlimits', hstep, h⟩
    · simp_all
    · rw [h]
      exact ⟨hinv', hlimits'.trans hlimits, hstep.counted hcounted⟩

/-- What operations lead to after a frame is opened on `base`, while frames above it are open. -/
inductive OpsAbove (base : EffectStackV1) : EffectStackV1 → Prop where
  | opened {after} : perform EffectOp.begin.run base = (.ok (), after) → OpsAbove base after
  | step {after} (op : EffectOp) : OpsAbove base after →
      base.frames.length < (op.next after).frames.length → OpsAbove base (op.next after)

theorem FrameStep.framesStep {frames frames' : List EffectFrameV1} (h : FrameStep frames frames') :
    FramesStep frames frames' := by
  cases h with
  | opened => exact .opened _ _
  | merged child parent rest => exact .folded child parent _ rest
  | dropped child parent rest => exact .folded child parent _ rest
  | emitted frame event rest => exact .changed frame _ rest
  | retained frame bytes rest => exact .changed frame _ rest

theorem OpsAbove.suffix {base : EffectStackV1} (hinv : base.Inv) (h : OpsAbove base stack) :
    stack.Inv ∧ base.frames <:+ stack.frames := by
  induction h with
  | opened h =>
    rw [EffectOp.run] at h
    cases hbegin : base.begin with
    | ok stack' =>
      rw [perform_update_ok hbegin] at h
      obtain ⟨hinv', -, hframes⟩ := begin_ok hinv hbegin
      simp_all
    | error e =>
      rw [perform_update_error hbegin] at h
      cases h
  | @step stack op _ hlt ih =>
    obtain ⟨hinv', hsuffix⟩ := ih
    rw [EffectOp.next] at hlt ⊢
    rcases op.outcome hinv' with ⟨e, -, h⟩ | ⟨stack', hinv'', -, hstep, h⟩
    · rw [h]
      exact ⟨hinv', hsuffix⟩
    · rw [h] at hlt ⊢
      exact ⟨hinv'', hstep.framesStep.above hsuffix hlt⟩

/-- The counters are the true counts of the open frames, within the limits. -/
structure Accounted (limits : CoordinatorLimitsV1) (stack : EffectStackV1) : Prop where
  events : stack.liveEventCount = (stack.frames.map fun frame => frame.events.length).sum
  bytes : stack.liveRetainedBytes =
    (stack.frames.map fun frame => dataBytes frame.events + frame.retainedReturnBytes).sum
  events_le : stack.liveEventCount ≤ limits.maxEvents
  bytes_le : stack.liveRetainedBytes ≤ limits.maxEffectBytes

theorem EffectsReached.accounted (h : EffectsReached limits stack) : Accounted limits stack := by
  obtain ⟨hinv, rfl, hcounted⟩ := h.inv
  refine ⟨hinv.events, ?_, hinv.events_le, hinv.bytes_le⟩
  rw [hinv.bytes]
  refine congrArg List.sum (List.map_congr_left fun frame hframe => ?_)
  rw [EffectFrameV1.bytes, hcounted frame hframe]

/-- A frame that is dropped gives back what it holds, and with that all that was taken since it
was opened. -/
structure Freed (stack : EffectStackV1) : Prop where
  frame : ∀ child parent rest, stack.frames = child :: parent :: rest →
    ∃ stack', perform EffectOp.revert.run stack = (.ok (), stack') ∧
      stack'.frames = parent :: rest ∧
      stack'.liveEventCount + child.events.length = stack.liveEventCount ∧
      stack'.liveRetainedBytes + (dataBytes child.events + child.retainedReturnBytes) =
        stack.liveRetainedBytes
  opened : ∀ after, OpsAbove stack after → after.frames.length = stack.frames.length + 1 →
    ∃ stack', perform EffectOp.revert.run after = (.ok (), stack') ∧
      stack'.frames = stack.frames ∧ stack'.liveEventCount = stack.liveEventCount ∧
      stack'.liveRetainedBytes = stack.liveRetainedBytes

theorem EffectsReached.freed (h : EffectsReached limits stack) : Freed stack where
  frame child parent rest hframes := by
    obtain ⟨hinv, -, hcounted⟩ := h.inv
    obtain ⟨hevents, hbytes, -⟩ := hinv.sums hframes
    have hchild : child.bytes = dataBytes child.events + child.retainedReturnBytes := by
      rw [EffectFrameV1.bytes, hcounted child (by simp [hframes])]
    refine ⟨_, perform_update_ok (revert_ok hinv hframes), rfl, ?_, ?_⟩
    · simp only [EffectStackV1.withFrames, List.map_cons, List.sum_cons]
      omega
    · simp only [EffectStackV1.withFrames, List.map_cons, List.sum_cons]
      omega
  opened after hafter hlength := by
    obtain ⟨hinv, -, -⟩ := h.inv
    obtain ⟨hinv', hsuffix⟩ := hafter.suffix hinv
    obtain ⟨child, below, hframes⟩ := List.exists_cons_of_ne_nil hinv'.frames
    rw [hframes] at hsuffix hlength
    obtain ⟨parent, rest, hparent⟩ := List.exists_cons_of_ne_nil hinv.frames
    rw [eq_of_suffix_cons hsuffix hlength, hparent] at hframes
    refine ⟨_, perform_update_ok (revert_ok hinv' hframes), hparent.symm, ?_, ?_⟩
    · rw [hinv.events, hparent]
      rfl
    · rw [hinv.bytes, hparent]
      rfl

/-- After any operations the counters are true and within the limits, none is ever found to be
wrong, an operation that fails changes nothing, and dropping a frame frees what it took. -/
theorem effects_accounted (h : EffectsReached limits stack) : Accounted limits stack ∧
    (∀ op : EffectOp, (perform op.run stack).1 ≠ .error .accountingInvariant) ∧
    (∀ (op : EffectOp) (e : CoordinatorError), (perform op.run stack).1 = .error e →
      (perform op.run stack).2 = stack) ∧ Freed stack := by
  obtain ⟨hinv, -, -⟩ := h.inv
  refine ⟨h.accounted, fun op => ?_, fun op e => ?_, h.freed⟩
  · rcases op.outcome hinv with ⟨e, hne, h⟩ | ⟨stack', -, -, -, h⟩
    · rw [h]
      exact fun heq => hne (Except.error.inj heq)
    · rw [h]
      intro heq
      cases heq
  · rcases op.outcome hinv with ⟨e', -, h⟩ | ⟨stack', -, -, -, h⟩
    · rw [h]
      exact fun _ => rfl
    · rw [h]
      intro heq
      cases heq

/-- Five bytes retained in a frame above the root. -/
theorem effects_accounted_retained : ∃ (limits : CoordinatorLimitsV1) (stack : EffectStackV1),
    EffectsReached limits stack ∧ stack.frames.length = 2 ∧ stack.liveRetainedBytes = 5 ∧
      Accounted limits stack := by
  have h : EffectsReached ⟨2, 1, 100, by decide⟩
      ((EffectOp.retainReturnBytes 5).next (EffectOp.begin.next (.new ⟨2, 1, 100, by decide⟩))) :=
    .step _ (.step _ .new)
  exact ⟨_, _, h, rfl, rfl, (effects_accounted h).1⟩

end Oregon.Execution
