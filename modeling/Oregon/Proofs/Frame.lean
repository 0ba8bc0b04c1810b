import Oregon.Sanity.Invariant
import Oregon.Sanity.Sample

/-! A call that fails changes nothing but marks: whatever the reason of the error, the
tips, both copies of the UTXO set, the active mapping, the bodies and the undo records
are as before. After a storage fault or a refused reorganization nothing changes any more. -/

namespace Oregon

open Lib

section

variable [Crypto] {verifier : SpendVerifier} {s : ChainState}

/-- The record `r'` of `id` is the mark of a candidate: a block that is not active, the
delivered one or an ancestor of it. A known block keeps everything but its status. -/
structure MarkOf (s : ChainState) (request : Request) (id : Hash256) (r' : BlockIndexRecord) :
    Prop where
  status : r'.validation = .invalid
  known : ∀ r, s.db.getIndex id = some r → r' = { r with validation := .invalid }
  side : ∀ height, s.db.activeIdAtHeight height ≠ some id
  candidate : ∃ block, request = .acceptBlock block ∧
    (id = block.header.blockId ∨ Ancestor s.db.blockIndex id block.header.previousBlock)

theorem Rejects.markOf {block : Block} {index : BlockIndexRecord} {forkHeight : ℕ}
    {path suffix : List ReorgCandidate} (h : Consistent s)
    (hr : Rejects verifier s block index forkHeight path suffix) :
    ∀ c ∈ suffix, MarkOf s (.acceptBlock block) c.id (c.marked block.header.blockId) := by
  intro c hc
  have hmem := hr.mem_path c hc
  refine ⟨rfl, fun r hrecord => ?_, hr.pathOk.not_active h.active hr.candidate c hmem, block, rfl,
    hr.pathOk.ancestor hr.candidate c hmem⟩
  obtain ⟨below, rfl, hbelow⟩ := hr.pathOk.last
  rcases List.mem_append.mp hmem with hlow | htop
  · have hne : c.id ≠ block.header.blockId := fun heq => by
      have hnodup := hr.pathOk.nodup_ids hr.candidate
      grind
    obtain rfl := Option.some.inj (hrecord.symm.trans (hbelow c hlow).1)
    rw [ReorgCandidate.marked, if_neg hne]
  · -- the delivered block has a record without a body, or none yet
    obtain rfl := List.mem_singleton.mp htop
    rcases hr.candidate.source_eq with hknown | ⟨hfresh, hid⟩
    · obtain rfl := Option.some.inj (hrecord.symm.trans hknown)
      rw [ReorgCandidate.marked, if_pos rfl, BlockIndexRecord.withBody, ← hr.candidate.body]
    · rw [← hid] at hrecord
      cases hrecord.symm.trans hfresh.unknown

/-- What may differ after an error. -/
structure FailureFrame (s : ChainState) (request : Request) (s' : ChainState) : Prop where
  frame : s' = { s with
    sessionHealth := s'.sessionHealth
    db := { s.db with blockIndex := s'.db.blockIndex, health := s'.db.health } }
  marks : ∀ id : Hash256, s'.db.getIndex id = s.db.getIndex id ∨
    ∃ r', s'.db.getIndex id = some r' ∧ MarkOf s request id r'

theorem Effect.failureFrame {request : Request} {s' : ChainState} {e : ChainStateError}
    (h : Consistent s) (he : Effect verifier s request s' (.error e)) :
    FailureFrame s request s' := by
  cases he with
  | refused => exact ⟨rfl, fun _ => Or.inl rfl⟩
  | faulted => exact ⟨rfl, fun _ => Or.inl rfl⟩
  | deep => exact ⟨rfl, fun _ => Or.inl rfl⟩
  | @marked block index forkHeight path suffix _ _ _ _ candidate parent heavy pathOk plan disconnect
      connect =>
    have hrejects : Rejects verifier s block index forkHeight path suffix :=
      ⟨candidate, parent, heavy, pathOk, _, _, _, _, plan, disconnect, connect⟩
    refine ⟨rfl, fun id => ?_⟩
    rcases lookup_applyChanges_cases (suffix.map fun c =>
      (c.id, some (c.marked block.header.blockId))) s.db.blockIndex id with ⟨-, heq⟩ | ⟨_, hmem, heq⟩
    · exact Or.inl heq
    · obtain ⟨c, hc, hpair⟩ := List.mem_map.mp hmem
      obtain ⟨rfl, rfl⟩ := Prod.mk.inj hpair
      exact Or.inr ⟨_, heq, hrejects.markOf h c hc⟩

theorem step_unhealthy (hs : s.sessionHealth ≠ .healthy) (call : Call) :
    ∃ e, step verifier s call = (s, .error e) := by
  obtain ⟨e, he⟩ : ∃ e, s.ensureMutationAllowed = .error e := by
    unfold ChainState.ensureMutationAllowed
    cases hcase : s.sessionHealth with
    | healthy => exact absurd hcase hs
    | storageFaulted => exact ⟨_, rfl⟩
    | reindexRequired => exact ⟨_, rfl⟩
  obtain ⟨request, faults⟩ := call
  cases request with
  | acceptHeader => simp [step, ChainState.acceptHeader, he, Except.map]
  | acceptBlock => simp [step, ChainState.acceptBlock, he, Except.map]
  | prune => simp [step, ChainState.prune, he, Except.map]

/-- After an error of any kind, at any point of a run, everything but the marks of
candidates and the health is as before; and when the health is lost, every later call
fails and nothing changes any more. -/
theorem failed_call_frame {config : ChainConfig} {s₀ : ChainState} {calls : List Call}
    (hboot : Bootstrapped config s₀) (call : Call) :
    (∀ e, (step verifier (run verifier s₀ calls) call).2 = .error e →
      FailureFrame (run verifier s₀ calls) call.request
        (step verifier (run verifier s₀ calls) call).1) ∧
    ((run verifier s₀ calls).sessionHealth ≠ .healthy →
      (∃ e, step verifier (run verifier s₀ calls) call = (run verifier s₀ calls, .error e)) ∧
      ∀ later, run verifier s₀ (calls ++ later) = run verifier s₀ calls) := by
  have hs : Consistent (run verifier s₀ calls) := (run_consistent hboot).1
  refine ⟨fun e he => ?_, fun hsick => ⟨step_unhealthy hsick call, fun later => ?_⟩⟩
  · have heffect : Effect verifier _ call.request _ _ := step_effect hs.index call
    rw [he] at heffect
    exact heffect.failureFrame hs
  · rw [run, List.foldl_append]
    change run verifier (run verifier s₀ calls) later = _
    refine run_inv (P := fun t => t = run verifier s₀ calls) rfl fun t c _ ht => ?_
    obtain ⟨e, he⟩ : ∃ e, step verifier _ c = (_, .error e) := step_unhealthy hsick c
    rw [ht, he]

end

open Sample in
theorem failed_call_frame_sample : ∃ s₀ : ChainState, Bootstrapped config s₀ ∧
    (step verifier (run verifier s₀ [deliver first, deliver badFirst]) (deliver badSecond)).2 =
      .error (.utxo (.consensus .invalidCoinbase)) ∧
    FailureFrame (run verifier s₀ [deliver first, deliver badFirst]) (.acceptBlock badSecond)
      (step verifier (run verifier s₀ [deliver first, deliver badFirst]) (deliver badSecond)).1 ∧
    (run verifier s₀ [⟨.acceptBlock first, ⟨some "no space", none⟩⟩]).sessionHealth =
      .storageFaulted ∧
    ∃ e, step verifier (run verifier s₀ [⟨.acceptBlock first, ⟨some "no space", none⟩⟩])
      (deliver first) = (run verifier s₀ [⟨.acceptBlock first, ⟨some "no space", none⟩⟩], .error e) := by
  have hboot : Bootstrapped config (.initial config) := bootstrapped_initial (by decide +kernel)
  have hfails : (step verifier (run verifier (.initial config) [deliver first, deliver badFirst])
      (deliver badSecond)).2 = .error (.utxo (.consensus .invalidCoinbase)) := by
    decide +kernel
  have hsick : (run verifier (.initial config)
      [⟨.acceptBlock first, ⟨some "no space", none⟩⟩]).sessionHealth = .storageFaulted := by
    decide +kernel
  exact ⟨_, hboot, hfails, (failed_call_frame hboot _).1 _ hfails, hsick,
    ((failed_call_frame hboot (deliver first)).2 (by rw [hsick]; decide)).1⟩

end Oregon
