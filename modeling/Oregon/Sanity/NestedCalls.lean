import Oregon.Sanity.Host

/-! What a nested call does besides running its backend. Entering begins one frame on each
stack and moves the attached value in it, or leaves the stacks as they were; leaving
merges both new frames or drops both, whatever the backend has done above them. -/

namespace Oregon.Execution

open Lib ContractState

/-- The journal after writes to the newest frame, at places that satisfy `P`. -/
structure Grown (P : CommitmentDomainId → Bytes → Prop) (j j' : ExecutionJournalV1) : Prop where
  inv : j'.Inv
  base : SameBase j j'
  frames : ∃ top top' below, j.frames = top :: below ∧ j'.frames = top' :: below ∧
    ∀ domain key, ¬ P domain key → top'.find domain key = top.find domain key

namespace Grown

variable {P Q : CommitmentDomainId → Bytes → Prop} {j j' j'' : ExecutionJournalV1}

theorem of_eq (hinv : j.Inv) (h : j' = j) : Grown P j j' := by
  subst h
  obtain ⟨top, below, hframes⟩ := List.exists_cons_of_ne_nil hinv.frames
  exact ⟨hinv, .refl _, top, top, below, hframes, hframes, fun _ _ _ => rfl⟩

theorem trans (h : Grown P j j') (h' : Grown P j' j'') : Grown P j j'' := by
  obtain ⟨top, top', below, hj, hj', hsame⟩ := h.frames
  obtain ⟨_, top'', _, heq, hj'', hsame'⟩ := h'.frames
  rw [hj', List.cons.injEq] at heq
  obtain ⟨rfl, rfl⟩ := heq
  exact ⟨h'.inv, h.base.trans h'.base, top, top'', below, hj, hj'', fun domain key hP =>
    (hsame' domain key hP).trans (hsame domain key hP)⟩

theorem mono (h : Grown P j j') (hle : ∀ domain key, P domain key → Q domain key) :
    Grown Q j j' := by
  obtain ⟨top, top', below, hj, hj', hsame⟩ := h.frames
  exact ⟨h.inv, h.base, top, top', below, hj, hj', fun domain key hQ =>
    hsame domain key fun hP => hQ (hle domain key hP)⟩

theorem pending (h : Grown P j j') {domain : CommitmentDomainId} {key : Bytes}
    (hP : ¬ P domain key) : j'.pending domain key = j.pending domain key := by
  obtain ⟨top, top', below, hj, hj', hsame⟩ := h.frames
  simp only [ExecutionJournalV1.pending, hj, hj', List.findSome?_cons, hsame domain key hP]

theorem read [Crypto] (h : Grown P j j') {domain : CommitmentDomainId} {key : Bytes}
    (hP : ¬ P domain key) : j'.read domain key = j.read domain key :=
  h.base.read_eq (h.pending hP)

theorem depth (h : Grown P j j') : j'.frames.length = j.frames.length := by
  obtain ⟨_, _, _, hj, hj', -⟩ := h.frames
  rw [hj, hj', List.length_cons, List.length_cons]

theorem staged {domain : CommitmentDomainId} {key : Bytes} {value : JournalValue} (hinv : j.Inv)
    (h : j.stageWrite domain key value = .ok j') :
    Grown (fun d k => d = domain ∧ k = key) j j' := by
  have hstaged := stageWrite_ok h
  obtain ⟨top, top', below, hj, hj', hwrites, -⟩ := hstaged.frames
  refine ⟨hstaged.inv hinv, hstaged.base, top, top', below, hj, hj', fun d k hne => ?_⟩
  rw [JournalFrame.find, hwrites, find₂_insert₂, if_neg fun heq => hne ⟨heq.1.symm, heq.2.symm⟩]
  rfl

end Grown

/-- The effects after some events in the newest frame. -/
structure Emits (events : List ExecutionEventV1) (e e' : EffectStackV1) : Prop where
  inv : e'.Inv
  limits : e'.limits = e.limits
  frames : ∃ frame frame' rest, e.frames = frame :: rest ∧ e'.frames = frame' :: rest ∧
    frame'.events = frame.events ++ events

namespace Emits

variable {events events' : List ExecutionEventV1} {e e' e'' : EffectStackV1}

theorem of_eq (hinv : e.Inv) (h : e' = e) : Emits [] e e' := by
  subst h
  obtain ⟨frame, rest, hframes⟩ := List.exists_cons_of_ne_nil hinv.frames
  exact ⟨hinv, rfl, frame, frame, rest, hframes, hframes, (List.append_nil _).symm⟩

theorem trans (h : Emits events e e') (h' : Emits events' e' e'') :
    Emits (events ++ events') e e'' := by
  obtain ⟨frame, frame', rest, he, he', hevents⟩ := h.frames
  obtain ⟨_, frame'', _, heq, he'', hevents'⟩ := h'.frames
  rw [he', List.cons.injEq] at heq
  obtain ⟨rfl, rfl⟩ := heq
  exact ⟨h'.inv, h'.limits.trans h.limits, frame, frame'', rest, he, he'', by
    rw [hevents', hevents, List.append_assoc]⟩

theorem depth (h : Emits events e e') : e'.frames.length = e.frames.length := by
  obtain ⟨_, _, _, he, he', -⟩ := h.frames
  rw [he, he', List.length_cons, List.length_cons]

theorem liveEvents (h : Emits events e e') : e'.liveEvents = e.liveEvents ++ events := by
  obtain ⟨frame, frame', rest, he, he', hevents⟩ := h.frames
  simp [EffectStackV1.liveEvents, he, he', hevents]

end Emits

/-- What a part of an execution does to the state. -/
structure Advance (P : CommitmentDomainId → Bytes → Prop) (events : List ExecutionEventV1)
    (s t : HostState) : Prop where
  metered : Metered s t
  journal : Grown P s.journal t.journal
  effects : Emits events s.effects t.effects

namespace Advance

variable {P Q : CommitmentDomainId → Bytes → Prop} {events events' : List ExecutionEventV1}
  {s t u : HostState}

theorem inv (h : Advance P events s t) : t.Inv := ⟨h.journal.inv, h.effects.inv⟩

theorem trans (h : Advance P events s t) (h' : Advance P events' t u) :
    Advance P (events ++ events') s u :=
  ⟨h.metered.trans h'.metered, h.journal.trans h'.journal, h.effects.trans h'.effects⟩

theorem mono (h : Advance P events s t) (hle : ∀ domain key, P domain key → Q domain key) :
    Advance Q events s t :=
  ⟨h.metered, h.journal.mono hle, h.effects⟩

theorem quiet (h : Quiet s t) (hs : s.Inv) : Advance P [] s t :=
  ⟨h.toMetered, .of_eq hs.journal h.journal, .of_eq hs.effects h.effects⟩

theorem op {context : RuntimeCallContextV1} (h : OpStep context s t events) (hs : s.Inv) :
    Advance (fun domain _ => domain = .wasm ∧ context.parts.readOnly = false) events s t := by
  cases h with
  | quiet h => exact .quiet h hs
  | @write t key value j h hwritable hwritten =>
    refine ⟨h.toMetered.congr rfl rfl, ?_, .of_eq hs.effects h.effects⟩
    exact (Grown.staged hs.journal hwritten).mono fun d k hd => ⟨hd.1, hwritable⟩
  | @event t event frame rest h hframes hinv =>
    exact ⟨h.toMetered.congr rfl rfl, .of_eq hs.journal h.journal,
      hinv, rfl, frame, frame.emit event, rest, hframes, rfl, rfl⟩

end Advance

section

variable {α : Type}

theorem perform_onJournal {ε : Type} (x : Stateful ExecutionJournalV1 ε α) (s : HostState) :
    perform (onJournal x) s = (.ok (perform x s.journal).1,
      { s with journal := (perform x s.journal).2 }) := rfl

theorem perform_onEffects (x : Stateful EffectStackV1 CoordinatorError α) (s : HostState) :
    perform (onEffects x) s = (.ok (perform x s.effects).1,
      { s with effects := (perform x s.effects).2 }) := rfl

end

/-- Both stacks as they were, except for bytes that are retained in the newest frame. -/
structure Restored (s t : HostState) : Prop where
  metered : Metered s t
  inv : t.Inv
  base : SameBase s.journal t.journal
  limits : t.effects.limits = s.effects.limits
  journal : t.journal.frames = s.journal.frames
  effects : ∃ frame frame' rest, s.effects.frames = frame :: rest ∧
    t.effects.frames = frame' :: rest ∧ frame'.events = frame.events

/-- One frame more on both stacks: what it has written, at places that satisfy `P`, and what
it has emitted. -/
structure Above (P : CommitmentDomainId → Bytes → Prop) (events : List ExecutionEventV1)
    (s u : HostState) : Prop where
  metered : Metered s u
  inv : u.Inv
  base : SameBase s.journal u.journal
  limits : u.effects.limits = s.effects.limits
  journal : ∃ child, u.journal.frames = child :: s.journal.frames ∧
    ∀ domain key, ¬ P domain key → child.find domain key = none
  effects : ∃ frame, u.effects.frames = frame :: s.effects.frames ∧ frame.events = events

section

variable {s t u : HostState} {P Q : CommitmentDomainId → Bytes → Prop}
  {events events' : List ExecutionEventV1}

theorem Restored.of_frames (hmetered : Metered s t) (hs : s.Inv) (ht : t.Inv)
    (hbase : SameBase s.journal t.journal) (hlimits : t.effects.limits = s.effects.limits)
    (hjournal : t.journal.frames = s.journal.frames) (heffects : t.effects.frames = s.effects.frames) :
    Restored s t := by
  obtain ⟨frame, rest, hframes⟩ := List.exists_cons_of_ne_nil hs.effects.frames
  exact ⟨hmetered, ht, hbase, hlimits, hjournal, frame, frame, rest, hframes,
    heffects.trans hframes, rfl⟩

theorem Restored.of_quiet (h : Quiet s t) (hs : s.Inv) : Restored s t :=
  .of_frames h.toMetered hs (h.inv hs) (h.journal ▸ .refl _) (by rw [h.effects]) (by rw [h.journal])
    (by rw [h.effects])

theorem Restored.quiet (h : Restored s t) (h' : Quiet t u) : Restored s u :=
  ⟨h.metered.trans h'.toMetered, h'.inv h.inv, by rw [h'.journal]; exact h.base,
    by rw [h'.effects]; exact h.limits, by rw [h'.journal]; exact h.journal,
    by rw [h'.effects]; exact h.effects⟩

theorem Restored.after (h' : Quiet s t) (h : Restored t u) : Restored s u :=
  ⟨h'.toMetered.trans h.metered, h.inv, h'.journal ▸ h.base, h'.effects ▸ h.limits,
    h'.journal ▸ h.journal, h'.effects ▸ h.effects⟩

theorem Restored.advance (h : Restored s t) : Advance P [] s t := by
  obtain ⟨frame, frame', rest, hs, ht, hevents⟩ := h.effects
  obtain ⟨top, below, hframes⟩ := List.exists_cons_of_ne_nil h.inv.journal.frames
  exact ⟨h.metered, ⟨h.inv.journal, h.base, top, top, below, h.journal ▸ hframes, hframes,
    fun _ _ _ => rfl⟩, h.inv.effects, h.limits, frame, frame', rest, hs, ht, by simp [hevents]⟩

theorem Above.mono (h : Above P events s u) (hle : ∀ domain key, P domain key → Q domain key) :
    Above Q events s u := by
  obtain ⟨child, hframes, hnone⟩ := h.journal
  exact ⟨h.metered, h.inv, h.base, h.limits, ⟨child, hframes, fun domain key hQ =>
    hnone domain key fun hP => hQ (hle domain key hP)⟩, h.effects⟩

theorem Above.after (h' : Quiet s t) (h : Above P events t u) : Above P events s u :=
  ⟨h'.toMetered.trans h.metered, h.inv, h'.journal ▸ h.base, h'.effects ▸ h.limits,
    h'.journal ▸ h.journal, h'.effects ▸ h.effects⟩

theorem Above.advance (h : Above P events s t) (h' : Advance P events' t u) :
    Above P (events ++ events') s u := by
  obtain ⟨child, hframes, hnone⟩ := h.journal
  obtain ⟨top, top', below, ht, hu, hsame⟩ := h'.journal.frames
  obtain ⟨frame, heffects, hevents⟩ := h.effects
  obtain ⟨frame₁, frame₂, rest, ht', hu', hevents'⟩ := h'.effects.frames
  rw [hframes, List.cons.injEq] at ht
  rw [heffects, List.cons.injEq] at ht'
  obtain ⟨rfl, rfl⟩ := ht
  obtain ⟨rfl, rfl⟩ := ht'
  exact ⟨h.metered.trans h'.metered, h'.inv, h.base.trans h'.journal.base,
    h'.effects.limits.trans h.limits, ⟨top', hu, fun domain key hP =>
      (hsame domain key hP).trans (hnone domain key hP)⟩, frame₂, hu', by rw [hevents', hevents]⟩

/-- The state without its newest frames. -/
def HostState.dropTo (u s : HostState) : HostState :=
  { u with journal := u.journal.withFrames s.journal.frames
           effects := u.effects.withFrames s.effects.frames }

theorem Above.dropTo (h : Above P events s u) (hs : s.Inv) : Restored s (u.dropTo s) := by
  obtain ⟨child, hframes, -⟩ := h.journal
  obtain ⟨frame, heffects, -⟩ := h.effects
  obtain ⟨parent, below, hparent⟩ := List.exists_cons_of_ne_nil hs.journal.frames
  obtain ⟨frame', rest, hframe'⟩ := List.exists_cons_of_ne_nil hs.effects.frames
  rw [hparent] at hframes
  rw [hframe'] at heffects
  refine .of_frames (h.metered.congr rfl rfl) hs ⟨?_, ?_⟩ (h.base.trans (.withFrames ..)) h.limits rfl rfl
  · simpa only [HostState.dropTo, hparent] using h.inv.journal.below hframes
  · simpa only [HostState.dropTo, hframe'] using h.inv.effects.below heffects

theorem Above.reverts (h : Above P events s u) (hs : s.Inv) :
    u.journal.revertFrame = .ok (u.dropTo s).journal ∧ u.effects.revert = .ok (u.dropTo s).effects := by
  obtain ⟨child, hframes, -⟩ := h.journal
  obtain ⟨frame, heffects, -⟩ := h.effects
  obtain ⟨parent, below, hparent⟩ := List.exists_cons_of_ne_nil hs.journal.frames
  obtain ⟨frame', rest, hframe'⟩ := List.exists_cons_of_ne_nil hs.effects.frames
  rw [hparent] at hframes
  rw [hframe'] at heffects
  simp only [HostState.dropTo, hparent, hframe']
  exact ⟨revertFrame_ok h.inv.journal hframes, revert_ok h.inv.effects heffects⟩

theorem rollbackChildFrames_ok (h : Above P events s u) (hs : s.Inv) :
    perform rollbackChildFrames u = (.ok (), u.dropTo s) := by
  obtain ⟨hjournal, heffects⟩ := h.reverts hs
  rw [rollbackChildFrames, perform_bind_ok (perform_onJournal _ u), perform_update_ok hjournal,
    perform_bind_ok (perform_onEffects _ _), perform_update_ok heffects]
  rfl

/-- What a call leaves that is kept: what its frames have done is part of the frames below. -/
structure Merged (P : CommitmentDomainId → Bytes → Prop) (events : List ExecutionEventV1)
    (s u t : HostState) : Prop where
  advance : Advance P events s t
  meter : t.meter = u.meter
  terminal : t.terminal = u.terminal
  base : SameBase u.journal t.journal
  pending : ∀ domain key, t.journal.pending domain key = u.journal.pending domain key
  liveEvents : t.effects.liveEvents = u.effects.liveEvents

theorem Merged.metered (h : Merged P events s u t) : Metered u t :=
  (Metered.refl u).congr h.meter h.terminal

/-- The newest frames can be merged into those below. -/
theorem Above.commits (h : Above P events s u) (hs : s.Inv) : ∃ t,
    u.journal.commitFrame = .ok t.journal ∧ u.effects.commit = .ok t.effects ∧
      Merged P events s u t := by
  obtain ⟨child, hframes, hnone⟩ := h.journal
  obtain ⟨frame, heffects, hevents⟩ := h.effects
  obtain ⟨parent, below, hparent⟩ := List.exists_cons_of_ne_nil hs.journal.frames
  obtain ⟨frame', rest, hframe'⟩ := List.exists_cons_of_ne_nil hs.effects.frames
  rw [hparent] at hframes
  rw [hframe'] at heffects
  refine ⟨{ u with journal := u.journal.withFrames (parent.merged child :: below)
                   effects := u.effects.withFrames (frame'.merged frame :: rest) },
    commitFrame_ok h.inv.journal hframes, commit_ok h.inv.effects heffects,
    ⟨h.metered.congr rfl rfl, ⟨h.inv.journal.merged hframes, h.base.trans (.withFrames ..), parent,
      parent.merged child, below, hparent, rfl, fun domain key hP => ?_⟩,
      h.inv.effects.merged heffects, h.limits, frame', frame'.merged frame, rest, hframe', rfl, ?_⟩,
    rfl, rfl, .withFrames .., pending_merged hframes, ?_⟩
  · rw [find_merged, hnone domain key hP, Option.none_or]
  · rw [EffectFrameV1.merged, hevents]
  · simp [EffectStackV1.liveEvents, EffectStackV1.withFrames, heffects, EffectFrameV1.merged]

theorem commitChildFrames_ok (h : Above P events s u) (hs : s.Inv) :
    ∃ t, perform commitChildFrames u = (.ok (), t) ∧ Merged P events s u t := by
  obtain ⟨t, hjournal, heffects, hmerged⟩ := h.commits hs
  refine ⟨t, ?_, hmerged⟩
  have ht : t = { u with journal := t.journal, effects := t.effects } := by
    rw [← hmerged.meter, ← hmerged.terminal]
  rw [commitChildFrames, perform_bind_ok (perform_onJournal _ u), perform_update_ok hjournal]
  rw [perform_bind_ok (perform_onEffects _ _), perform_update_ok heffects, ht]
  rfl

/-- Bytes that are retained do not matter to what the newest frames have done. -/
theorem Above.retains (h : Above P events s u) {bytes : ℕ} {e : EffectStackV1}
    (he : u.effects.retainReturnBytes bytes = .ok e) :
    Above P events s { u with effects := e } ∧ e.liveEvents = u.effects.liveEvents := by
  obtain ⟨frame, hframes, hevents⟩ := h.effects
  have hroom : u.effects.liveRetainedBytes + bytes ≤ u.effects.limits.maxEffectBytes := by
    by_contra hroom
    cases (retainReturnBytes_error hroom).symm.trans he
  obtain rfl := Except.ok.inj ((retainReturnBytes_ok h.inv.effects hframes hroom).symm.trans he)
  refine ⟨⟨h.metered.congr rfl rfl, ⟨h.inv.journal, h.inv.effects.retained hframes hroom⟩, h.base,
    h.limits, h.journal, _, rfl, hevents⟩, ?_⟩
  simp [EffectStackV1.liveEvents, EffectStackV1.withFrames, hframes]

end

/-- Both stacks have got a frame for a call. -/
structure Begun (s : HostState) (j : ExecutionJournalV1) (e : EffectStackV1) : Prop where
  running : s.terminal = .running
  journal : s.journal.beginFrame = .ok j
  effects : s.effects.begin = .ok e

section

variable {s : HostState} {j j' : ExecutionJournalV1} {e : EffectStackV1}

theorem Begun.above (h : Begun s j e) (hs : s.Inv) {P : CommitmentDomainId → Bytes → Prop}
    (hgrown : Grown P j j') : Above P [] s { s with journal := j', effects := e } := by
  obtain ⟨-, hbase, hframes⟩ := beginFrame_ok hs.journal h.journal
  obtain ⟨hinv, hlimits, heffects⟩ := begin_ok hs.effects h.effects
  obtain ⟨top, top', below, htop, htop', hsame⟩ := hgrown.frames
  rw [hframes, List.cons.injEq] at htop
  obtain ⟨rfl, rfl⟩ := htop
  refine ⟨(Metered.refl s).congr rfl rfl, ⟨hgrown.inv, hinv⟩, hbase.trans hgrown.base, hlimits,
    ⟨top', htop', fun domain key hP => ?_⟩, .default, heffects, rfl⟩
  rw [hsame domain key hP, JournalFrame.find, JournalFrame.default, find₂]
  simp

/-- A limit on the frames of either stack exhausts the transaction. -/
theorem beginChildFrames_cases (hs : s.Inv) (hrunning : s.terminal = .running) :
    (∃ j e, Begun s j e ∧
      perform beginChildFrames s = (.ok (), { s with journal := j, effects := e })) ∨
    ∃ t, Restored s t ∧ t.terminal = .resourceExhausted ∧
      perform beginChildFrames s = (.error .abort, t) := by
  have hlatch : ∀ {α : Type} (u : HostState), perform (latch .resourceExhausted : Host α) u =
      (.error .abort, { u with terminal := .resourceExhausted }) := fun _ => rfl
  have hmetered : ∀ u : HostState, u.meter = s.meter → u.terminal = .resourceExhausted →
      Metered s u := fun u hmeter hterminal =>
    ⟨hmeter ▸ .refl _, by rw [hrunning]; exact Nat.zero_le _, fun _ _ => by simp [hterminal]⟩
  rw [beginChildFrames, perform_bind_ok (perform_onJournal _ s)]
  cases hbegin : s.journal.beginFrame with
  | error e =>
    rw [perform_update_error hbegin]
    refine Or.inr ⟨_, ?_, rfl, hlatch _⟩
    exact .of_frames (hmetered _ rfl rfl) hs ⟨hs.journal, hs.effects⟩ (.refl _) rfl rfl rfl
  | ok j =>
    rw [perform_update_ok hbegin]
    rw [perform_bind_ok (perform_onEffects _ _)]
    cases hbegin' : s.effects.begin with
    | ok e =>
      rw [perform_update_ok hbegin']
      exact Or.inl ⟨j, e, ⟨hrunning, hbegin, hbegin'⟩, rfl⟩
    | error e =>
      obtain ⟨hinv, hbase, hframes⟩ := beginFrame_ok hs.journal hbegin
      obtain ⟨parent, below, hparent⟩ := List.exists_cons_of_ne_nil hs.journal.frames
      rw [hparent] at hframes
      rw [perform_update_error hbegin']
      rw [perform_bind_ok (perform_onJournal _ _), perform_update_ok (revertFrame_ok hinv hframes)]
      refine Or.inr ⟨_, ?_, rfl, hlatch _⟩
      exact .of_frames (hmetered _ rfl rfl) hs ⟨hinv.below hframes, hs.effects⟩
        (hbase.trans (.withFrames ..)) rfl hparent.symm rfl

end

/-- What a balance is written as: nothing for none. -/
def balanceValue (value : ℕ) : JournalValue :=
  if value = 0 then none else some (encodeAccountingU64 value)

theorem writeBalance_eq_ok {j j' : ExecutionJournalV1} {address : ExecutionAddress} {value : ℕ} :
    writeBalance j address value = .ok j' ↔
      j.stageWrite .executionAccounting (balanceKey address) (balanceValue value) = .ok j' := by
  rw [writeBalance, balanceValue, mapError_eq_ok]
  split_ifs <;> rfl

/-- Value that is attached to a call. -/
structure Transfer where
  caller : ExecutionAddress
  target : ExecutionAddress
  value : ℕ
  deriving DecidableEq

/-- The entries that a transfer changes: two balances, when there is something to move. -/
def Transfer.touches (x : Transfer) (domain : CommitmentDomainId) (key : Bytes) : Prop :=
  x.value ≠ 0 ∧ x.caller ≠ x.target ∧ domain = .executionAccounting ∧
    (key = balanceKey x.caller ∨ key = balanceKey x.target)

section

variable [Crypto]

/-- How a transfer ends, and the journal that it leaves. -/
inductive Moves (caller target : ExecutionAddress) (value : ℕ) (j : ExecutionJournalV1) :
    Except AttachedValueTransferErrorV1 Unit → ExecutionJournalV1 → Prop where
  | still (h : value = 0 ∨ caller = target) : Moves caller target value j (.ok ()) j
  | refused {code : RuntimeTrapCodeV1} : Moves caller target value j (.error (.trap code)) j
  | moved {a b : ℕ} {j₁ j₂ : ExecutionJournalV1} (hne : caller ≠ target) (hvalue : value ≠ 0)
      (ha : readBalance j caller = .ok a) (hb : readBalance j target = .ok b) (hle : value ≤ a)
      (hsum : b + value < 2 ^ 64) (hdebit : writeBalance j caller (a - value) = .ok j₁)
      (hcredit : writeBalance j₁ target (b + value) = .ok j₂) :
      Moves caller target value j (.ok ()) j₂
  | unread {e : CoordinatorError} (hvalue : value ≠ 0)
      (h : readBalance j caller = .error e ∨ readBalance j target = .error e) :
      Moves caller target value j (.error .fatal) j
  | overflow {a b : ℕ} (hne : caller ≠ target) (ha : readBalance j caller = .ok a)
      (hb : readBalance j target = .ok b) (hle : value ≤ a) (hsum : 2 ^ 64 ≤ b + value) :
      Moves caller target value j (.error .fatal) j
  | undebited {a : ℕ} {e : CoordinatorError} (hne : caller ≠ target) (hvalue : value ≠ 0)
      (h : writeBalance j caller (a - value) = .error e) :
      Moves caller target value j (.error .fatal) j
  | uncredited {a b : ℕ} {j₁ : ExecutionJournalV1} {e : CoordinatorError} (hne : caller ≠ target)
      (hvalue : value ≠ 0) (hdebit : writeBalance j caller (a - value) = .ok j₁)
      (h : writeBalance j₁ target (b + value) = .error e) :
      Moves caller target value j (.error .fatal) j₁

theorem transfer_moves {caller target : ExecutionAddress} {value : ℕ} {j j' : ExecutionJournalV1}
    {r : Except AttachedValueTransferErrorV1 Unit}
    (h : perform (transferAttachedValue caller target value) j = (r, j')) :
    Moves caller target value j r j' := by
  rw [transferAttachedValue] at h
  by_cases hvalue : value = 0
  · rw [if_pos hvalue] at h
    cases h
    exact .still (Or.inl hvalue)
  rw [if_neg hvalue] at h
  by_cases hkind : spendableKind caller.kind ∧ spendableKind target.kind
  case neg =>
    rw [ensure_error hkind, perform_check_error] at h
    cases h
    exact .refused
  rw [ensure_ok hkind, perform_check_ok, perform_get_bind] at h
  cases ha : readBalance j caller with
  | error e =>
    rw [ha, mapError_error, perform_check_error] at h
    cases h
    exact .unread hvalue (Or.inl ha)
  | ok a =>
    rw [ha, mapError_ok, perform_check_ok] at h
    by_cases hle : value ≤ a
    case neg =>
      rw [ensure_error hle, perform_check_error] at h
      cases h
      exact .refused
    rw [ensure_ok hle, perform_check_ok] at h
    by_cases hne : caller = target
    · rw [if_pos hne] at h
      cases h
      exact .still (Or.inr hne)
    rw [if_neg hne] at h
    cases hb : readBalance j target with
    | error e =>
      rw [hb, mapError_error, perform_check_error] at h
      cases h
      exact .unread hvalue (Or.inr hb)
    | ok b =>
      rw [hb, mapError_ok, perform_check_ok, checkedSub, if_pos hle, orElse_some,
        perform_check_ok] at h
      by_cases hsum : b + value < 2 ^ 64
      case neg =>
        rw [checkedAdd, if_neg hsum, orElse_none, perform_check_error] at h
        cases h
        exact .overflow hne ha hb hle (Nat.not_lt.mp hsum)
      rw [checkedAdd, if_pos hsum, orElse_some, perform_check_ok] at h
      cases hdebit : writeBalance j caller (a - value) with
      | error e =>
        rw [perform_bind_error (perform_update_error (by rw [hdebit]; rfl))] at h
        cases h
        exact .undebited hne hvalue hdebit
      | ok j₁ =>
        rw [perform_bind_ok (perform_update_ok (by rw [hdebit]; rfl))] at h
        cases hcredit : writeBalance j₁ target (b + value) with
        | error e =>
          rw [perform_update_error (by rw [hcredit]; rfl)] at h
          cases h
          exact .uncredited hne hvalue hdebit hcredit
        | ok j₂ =>
          rw [perform_update_ok (by rw [hcredit]; rfl)] at h
          cases h
          exact .moved hne hvalue ha hb hle hsum hdebit hcredit

theorem Moves.grown {caller target : ExecutionAddress} {value : ℕ} {j j' : ExecutionJournalV1}
    {r : Except AttachedValueTransferErrorV1 Unit} (h : Moves caller target value j r j')
    (hj : j.Inv) : Grown (Transfer.touches ⟨caller, target, value⟩) j j' := by
  have hdebited : ∀ {a j₁}, caller ≠ target → value ≠ 0 → writeBalance j caller a = .ok j₁ →
      Grown (Transfer.touches ⟨caller, target, value⟩) j j₁ := fun hne hvalue hdebit =>
    (Grown.staged hj (writeBalance_eq_ok.mp hdebit)).mono fun _ _ h =>
      ⟨hvalue, hne, h.1, Or.inl h.2⟩
  cases h with
  | still h => exact .of_eq hj rfl
  | refused => exact .of_eq hj rfl
  | moved hne hvalue _ _ _ _ hdebit hcredit =>
    refine (hdebited hne hvalue hdebit).trans ?_
    exact (Grown.staged (hdebited hne hvalue hdebit).inv (writeBalance_eq_ok.mp hcredit)).mono
      fun _ _ h => ⟨hvalue, hne, h.1, Or.inr h.2⟩
  | unread _ h => exact .of_eq hj rfl
  | overflow _ _ _ _ _ => exact .of_eq hj rfl
  | undebited _ _ _ => exact .of_eq hj rfl
  | uncredited hne hvalue hdebit _ => exact hdebited hne hvalue hdebit

/-- How a nested call gets to its backend, or does not. -/
inductive Entry (dispatch : RuntimeDispatchTableV1) (parent : RuntimeCallContextV1)
    (spec : RuntimeCallSpecV1) (s : HostState) :
    Except RuntimeHostSignalV1 (RuntimeCallResultV1 ⊕ RuntimeCallContextV1 × RuntimeBackendV1) →
      HostState → Prop where
  | aborted {t : HostState} (restored : Restored s t) (terminal : t.terminal ≠ .running)
      (fatal : t.terminal = .fatal → s.terminal = .fatal) :
      Entry dispatch parent spec s (.error .abort) t
  | trapped {t : HostState} {code : RuntimeTrapCodeV1} (restored : Restored s t)
      (terminal : t.terminal = .running) :
      Entry dispatch parent spec s (.ok (.inl (.trap code))) t
  | failed {t : HostState} {j j' : ExecutionJournalV1} {e : EffectStackV1} (begun : Begun s j e)
      (moves : Moves parent.parts.target spec.target spec.value j (.error .fatal) j')
      (restored : Restored s t) (terminal : t.terminal = .fatal) :
      Entry dispatch parent spec s (.error .abort) t
  | entered {child : RuntimeCallContextV1} {factory : RuntimeBackendV1}
      {j j' : ExecutionJournalV1} {e : EffectStackV1}
      (context : deriveChildContext parent spec = .ok child)
      (found : dispatch.factoryFor spec.target = some factory) (begun : Begun s j e)
      (moves : Moves parent.parts.target spec.target spec.value j (.ok ()) j') :
      Entry dispatch parent spec s (.ok (.inr (child, factory))) { s with journal := j', effects := e }

section

variable {s t : HostState} {j j' : ExecutionJournalV1}
  {dispatch : RuntimeDispatchTableV1} {parent : RuntimeCallContextV1}
  {spec : RuntimeCallSpecV1}
  {r : Except RuntimeHostSignalV1 (RuntimeCallResultV1 ⊕ RuntimeCallContextV1 × RuntimeBackendV1)}

theorem enterCall_entry (hs : s.Inv) (h : perform (enterCall dispatch parent spec) s = (r, t)) :
    Entry dispatch parent spec s r t := by
  rw [enterCall] at h
  by_cases hrunning : s.terminal = .running
  case neg =>
    have hstop : perform ensureRunning s = (.error .abort, s) := by
      rw [ensureRunning, perform_get_bind, ensure_error hrunning, perform_check]
    rw [perform_bind_error hstop] at h
    cases h
    exact .aborted (.of_quiet (.refl s) hs) hrunning id
  have hrun : perform ensureRunning s = (.ok (), s) := by
    rw [ensureRunning, perform_get_bind, ensure_ok hrunning, perform_check]
  rw [perform_bind_ok hrun] at h
  cases hcontext : deriveChildContext parent spec with
  | error code =>
    rw [hcontext] at h
    cases h
    exact .trapped (.of_quiet (.refl s) hs) hrunning
  | ok child =>
    rw [hcontext] at h
    cases hfound : dispatch.factoryFor spec.target with
    | none =>
      rw [hfound] at h
      cases h
      exact .trapped (.of_quiet (.refl s) hs) hrunning
    | some factory =>
      rw [hfound] at h
      rcases beginChildFrames_cases hs hrunning with ⟨j, e, hbegun, hbegin⟩ | ⟨u, hu, hterminal, hbegin⟩
      case inr =>
        rw [perform_bind_error hbegin] at h
        cases h
        exact .aborted hu (by simp [hterminal]) fun hfatal => by simp [hterminal] at hfatal
      rw [perform_bind_ok hbegin, perform_bind_ok (perform_onJournal _ _)] at h
      cases htransfer : perform (transferAttachedValue parent.parts.target spec.target spec.value) j with
      | mk result j' =>
        have hmoves := transfer_moves htransfer
        have habove := hbegun.above hs (hmoves.grown (beginFrame_ok hs.journal hbegun.journal).1)
        rw [htransfer] at h
        cases result with
        | ok _ =>
          cases h
          exact .entered hcontext hfound hbegun hmoves
        | error failure =>
          cases failure with
          | trap code =>
            rw [perform_bind_ok (rollbackChildFrames_ok habove hs)] at h
            cases h
            exact .trapped (habove.dropTo hs) hrunning
          | fatal =>
            rw [perform_bind_ok (perform_attempt ..)] at h
            rw [rollbackChildFrames_ok habove hs] at h
            cases h
            exact .failed hbegun hmoves ((habove.dropTo hs).quiet (latchFatal_quiet (α := Unit) _)) rfl

end

end

section

variable {s t u : HostState} {P : CommitmentDomainId → Bytes → Prop} {events : List ExecutionEventV1}

/-- Bytes are retained in the newest frame, or there is no room for them. -/
theorem retainReturnData_above (h : Above P events s u) (bytes : ℕ) :
    (∃ u', perform (retainReturnData bytes) u = (.ok (.ok ()), u') ∧ Above P events s u' ∧
      u'.journal = u.journal ∧ u'.meter = u.meter ∧ u'.terminal = u.terminal ∧
      u'.effects.liveEvents = u.effects.liveEvents ∧
      (s.effects.frames.map EffectFrameV1.bytes).sum + bytes ≤ u.effects.limits.maxEffectBytes) ∨
    ∃ e, perform (retainReturnData bytes) u = (.ok (.error e), u) := by
  obtain ⟨frame, hframes, -⟩ := h.effects
  have hbytes := h.inv.effects.bytes
  have hle := h.inv.effects.bytes_le
  simp only [hframes, List.map_cons, List.sum_cons] at hbytes
  unfold retainReturnData
  by_cases hzero : bytes = 0
  · rw [if_pos hzero]
    exact Or.inl ⟨u, rfl, h, rfl, rfl, rfl, rfl, by omega⟩
  rw [if_neg hzero, perform_onEffects]
  by_cases hroom : u.effects.liveRetainedBytes + bytes ≤ u.effects.limits.maxEffectBytes
  · have hretain := retainReturnBytes_ok h.inv.effects hframes hroom
    obtain ⟨habove, hevents⟩ := h.retains hretain
    rw [perform_update_ok hretain]
    exact Or.inl ⟨_, rfl, habove, rfl, rfl, rfl, hevents, by omega⟩
  · rw [perform_update_error (retainReturnBytes_error hroom)]
    exact Or.inr ⟨_, rfl⟩

/-- What a call leaves that is rolled back. -/
structure RolledBack (s u : HostState) (r : Except RuntimeHostSignalV1 RuntimeCallResultV1)
    (t : HostState) : Prop where
  restored : Restored s t
  metered : Metered u t
  failed : ∀ data, r ≠ .ok (.success data)

theorem Above.rolledBack (h : Above P events s u) (hs : s.Inv)
    {r : Except RuntimeHostSignalV1 RuntimeCallResultV1} (hr : ∀ data, r ≠ .ok (.success data)) :
    RolledBack s u r (u.dropTo s) :=
  ⟨h.dropTo hs, (Metered.refl u).congr rfl rfl, hr⟩

theorem RolledBack.quiet {r : Except RuntimeHostSignalV1 RuntimeCallResultV1}
    (h : RolledBack s u r t) {v : HostState} (hv : Quiet t v) : RolledBack s u r v :=
  ⟨h.restored.quiet hv, h.metered.trans hv.toMetered, h.failed⟩

/-- The bytes of a result that is rolled back are retained below; there was room for them
above, so there is room for them there. -/
theorem retain_dropped (h : Above P events s u) (hs : s.Inv) {bytes : ℕ}
    (hroom : (s.effects.frames.map EffectFrameV1.bytes).sum + bytes ≤
      s.effects.limits.maxEffectBytes) :
    ∃ t, perform (retainReturnData bytes) (u.dropTo s) = (.ok (.ok ()), t) ∧ Restored s t ∧
      t.meter = u.meter ∧ t.terminal = u.terminal := by
  have hdropped := h.dropTo hs
  obtain ⟨frame, rest, hframes⟩ := List.exists_cons_of_ne_nil hs.effects.frames
  unfold retainReturnData
  by_cases hzero : bytes = 0
  · rw [if_pos hzero]
    exact ⟨_, rfl, hdropped, rfl, rfl⟩
  have hroom' : (u.dropTo s).effects.liveRetainedBytes + bytes ≤
      (u.dropTo s).effects.limits.maxEffectBytes := by
    rw [hdropped.limits]
    exact hroom
  have hframes' : (u.dropTo s).effects.frames = frame :: rest := hframes
  rw [if_neg hzero, perform_onEffects,
    perform_update_ok (retainReturnBytes_ok hdropped.inv.effects hframes' hroom')]
  exact ⟨_, rfl, ⟨hdropped.metered.congr rfl rfl,
    ⟨hdropped.inv.journal, hdropped.inv.effects.retained hframes' hroom'⟩, hdropped.base,
    hdropped.limits, hdropped.journal, frame, _, rest, hframes, rfl, rfl⟩, rfl, rfl⟩

/-- A call is kept when its backend succeeds in a running transaction, and its data fits. -/
theorem leaveCall_cases (h : Above P events s u) (hs : s.Inv)
    {backendResult : Except RuntimeBackendFailureV1 RuntimeCallResultV1}
    {r : Except RuntimeHostSignalV1 RuntimeCallResultV1}
    (hleave : perform (leaveCall backendResult) u = (r, t)) :
    (∃ data, r = .ok (.success data) ∧ backendResult = .ok (.success data) ∧
      t.terminal = .running ∧ Merged P events s u t) ∨
    RolledBack s u r t ∧
      (t.terminal = .fatal → u.terminal = .fatal ∨ ∃ e, backendResult = .error e) := by
  have hrolled := rollbackChildFrames_ok h hs
  have hsame : ∀ b : Prop, (u.dropTo s).terminal = .fatal → u.terminal = .fatal ∨ b :=
    fun _ hfatal => Or.inl hfatal
  rw [leaveCall.eq_def] at hleave
  cases backendResult with
  | error e =>
    rw [perform_bind_ok (perform_attempt ..), hrolled] at hleave
    cases hleave
    exact Or.inr ⟨(h.rolledBack (r := .error .abort) hs (by rintro _ ⟨⟩)).quiet (latchFatal_quiet (α := Unit) _),
      fun _ => Or.inr ⟨e, rfl⟩⟩
  | ok result =>
    rw [perform_get_bind] at hleave
    by_cases hrunning : u.terminal = .running
    case neg =>
      rw [if_pos hrunning, perform_bind_ok hrolled] at hleave
      cases hleave
      exact Or.inr ⟨h.rolledBack hs (by rintro _ ⟨⟩), hsame _⟩
    rw [if_neg (not_not.mpr hrunning)] at hleave
    cases hvalid : result.validate with
    | error e =>
      rw [hvalid] at hleave
      rw [perform_bind_ok hrolled] at hleave
      cases hleave
      exact Or.inr ⟨h.rolledBack hs (by rintro _ ⟨⟩), hsame _⟩
    | ok _ =>
      rw [hvalid] at hleave
      rcases retainReturnData_above h ((result.returnData.map List.length).getD 0) with
        ⟨u', hretain, habove, hjournal, hmeter, hterminal, hevents, hroom⟩ | ⟨e, hretain⟩
      case inr =>
        rw [perform_bind_ok hretain] at hleave
        rw [perform_bind_ok hrolled] at hleave
        cases hleave
        exact Or.inr ⟨h.rolledBack hs (by rintro _ ⟨⟩), hsame _⟩
      have hstep : Metered u u' := (Metered.refl u).congr hmeter hterminal
      have hrunning' : u'.terminal = .running := hterminal.trans hrunning
      have hrolled' := rollbackChildFrames_ok habove hs
      rw [perform_bind_ok hretain] at hleave
      cases result with
      | success data =>
        obtain ⟨v, hcommit, hmerged⟩ := commitChildFrames_ok habove hs
        rw [perform_bind_ok hcommit] at hleave
        cases hleave
        exact Or.inl ⟨data, rfl, rfl, hmerged.terminal.trans hrunning', hmerged.advance,
          hmerged.meter.trans hmeter, hmerged.terminal.trans hterminal, hjournal ▸ hmerged.base,
          fun domain key => by rw [hmerged.pending, hjournal], hmerged.liveEvents.trans hevents⟩
      | revert data =>
        have hroom' : (s.effects.frames.map EffectFrameV1.bytes).sum + data.length ≤
            s.effects.limits.maxEffectBytes := by
          rw [← h.limits]
          exact hroom
        obtain ⟨v, hretain', hrestored, hmeter', hterminal'⟩ := retain_dropped habove hs hroom'
        rw [perform_bind_ok hrolled'] at hleave
        change perform (retainReturnData data.length >>= _) _ = _ at hleave
        rw [perform_bind_ok hretain'] at hleave
        cases hleave
        refine Or.inr ⟨⟨hrestored, hstep.congr hmeter' hterminal', by rintro _ ⟨⟩⟩, fun hfatal => ?_⟩
        simp_all
      | trap code =>
        rw [perform_bind_ok hrolled', perform_pure, Prod.mk.injEq] at hleave
        obtain ⟨rfl, rfl⟩ := hleave
        refine Or.inr ⟨⟨habove.dropTo hs, hstep.congr rfl rfl, by rintro _ ⟨⟩⟩, fun hfatal => ?_⟩
        change u'.terminal = .fatal at hfatal
        grind

end

end Oregon.Execution
