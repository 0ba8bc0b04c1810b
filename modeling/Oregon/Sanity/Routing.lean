import Oregon.Sanity.Marks
import Oregon.Sanity.Walks

/-! Which way a delivered block goes. A block is admitted when its header has passed and
its body is not there yet; it then extends the tip, asks for a reorganization or is kept
beside the active chain. Whatever is not admitted leaves the state alone. -/

namespace Oregon

open Lib

def ChainStateError.NotStorage (e : ChainStateError) : Prop := ∀ error, e ≠ .storage error

theorem ChainStateError.IsCorrupt.notStorage {e : ChainStateError} (h : e.IsCorrupt) :
    e.NotStorage := by
  obtain ⟨_, rfl⟩ := h
  rintro _ ⟨⟩

theorem noteFault_notStorage {α : Type} {s : ChainState} {e : ChainStateError} (h : e.NotStorage) :
    noteFault (s, (.error e : Result α)) = (s, .error e) := by
  cases e with
  | storage error => exact absurd rfl (h error)
  | _ => rfl

section

variable [Crypto] {verifier : SpendVerifier} {s : ChainState} {block : Block}
  {index : BlockIndexRecord} {faults : Faults}

theorem validateCandidateHeader_fails (s : ChainState) (header : BlockHeader)
    (engine : Option PowError) :
    FailsIn ChainStateError.NotStorage (validateCandidateHeader s header engine) := by
  refine .bind (.orElse ?_) fun p => .bind (.ensure ?_) fun _ =>
    .bind ((timestampsFrom_fails 11 _).mono fun _ h => h.notStorage) fun _ =>
    .bind (.orElse ?_) fun _ => .bind (.mapError ?_) fun _ =>
    .bind ((ancestorIdAtHeight_fails _ _).mono fun _ h => h.notStorage) fun _ =>
    .bind (.orElse ?_) fun _ => .bind ?engine fun _ => .bind (.mapError ?_) fun _ => .ok _
  case engine =>
    cases engine with
    | none => exact .ok _
    | some _ => exact .error (by rintro _ ⟨⟩)
  all_goals simp [ChainStateError.NotStorage]

/-- The record a delivered block is admitted with: its own without a body, or the one its
header gets. -/
def admittedRecord (s : ChainState) (block : Block) (engine : Option PowError) :
    Option BlockIndexRecord :=
  match s.db.getIndex block.header.blockId with
  | some r =>
    if r.validation = .headerValidated ∧ r.bodyRetained = false ∧ r.header = block.header then some r
    else none
  | none =>
    match validateCandidateHeader s block.header engine with
    | .ok index => some index
    | .error _ => none

theorem admittedRecord_candidate (hok : IndexOk s.config s.db.blockIndex) {engine : Option PowError}
    (h : admittedRecord s block engine = some index) : Candidate s block index := by
  unfold admittedRecord at h
  split at h
  · next r hknown =>
    split_ifs at h with hr
    obtain rfl := Option.some.inj h
    obtain ⟨hstatus, hbody, hheader⟩ := hr
    exact ⟨hheader, hheader ▸ (hok.ident _ _ hknown).2, hstatus, hbody, Or.inl hknown⟩
  · next hunknown =>
    split at h
    · next r hvalid =>
      obtain rfl := Option.some.inj h
      obtain ⟨hheader, hfresh⟩ := validateCandidateHeader_ok hunknown hvalid
      exact ⟨hheader, hheader ▸ hfresh.parent_eq, hfresh.status, hfresh.body, Or.inr hfresh⟩
    · cases h

/-- An admitted block goes on with its record. -/
theorem acceptBlock_admitted (hhealthy : s.sessionHealth = .healthy)
    (h : admittedRecord s block faults.engine = some index) :
    s.acceptBlock block verifier faults =
      noteFault (s.perform faults.write (admitBody s block index verifier)) := by
  have haccept : acceptBlockHealthy s block verifier faults.engine =
      admitBody s block index verifier := by
    unfold admittedRecord at h
    unfold acceptBlockHealthy
    split at h
    · next r hknown =>
      split_ifs at h with hr
      obtain rfl := Option.some.inj h
      grind [ensure, ok_bind]
    · next hunknown =>
      split at h
      · next r hvalid =>
        obtain rfl := Option.some.inj h
        simp [hunknown, hvalid, ok_bind]
      · cases h
  simp only [ChainState.acceptBlock, ChainState.ensureMutationAllowed, hhealthy, haccept]

/-- A block that is not admitted is refused, or answered from what is known. -/
theorem acceptBlock_not_admitted (h : admittedRecord s block faults.engine = none) :
    (s.acceptBlock block verifier faults).1 = s := by
  have hhealthy : (∃ e : ChainStateError, e.NotStorage ∧
      acceptBlockHealthy s block verifier faults.engine = .error e) ∨
      ∃ reply, acceptBlockHealthy s block verifier faults.engine = .ok (.answer reply) := by
    unfold admittedRecord at h
    unfold acceptBlockHealthy
    split at h
    · next r hknown =>
      simp only [hknown]
      cases hstatus : r.validation with
      | invalid => exact Or.inl ⟨.corruptState _, by rintro _ ⟨⟩, rfl⟩
      | fullyValidated => exact Or.inr ⟨_, rfl⟩
      | headerValidated =>
        cases hbody : r.bodyRetained with
        | true => exact Or.inr ⟨_, rfl⟩
        | false =>
          have hheader : r.header ≠ block.header := fun heq => by simp [hstatus, hbody, heq] at h
          exact Or.inl ⟨.corruptState "known candidate header does not match stored index",
            by rintro _ ⟨⟩, by simp [hheader, ensure, error_bind]⟩
    · next hunknown =>
      simp only [hunknown]
      split at h
      · cases h
      · next e herror =>
        exact Or.inl ⟨e, validateCandidateHeader_fails _ _ _ e herror, by rw [herror]; rfl⟩
  unfold ChainState.acceptBlock
  split
  · rfl
  · rcases hhealthy with ⟨e, hne, he⟩ | ⟨reply, he⟩
    · rw [he]
      exact congrArg Prod.fst (noteFault_notStorage hne)
    · rw [he]
      rfl

end

end Oregon
