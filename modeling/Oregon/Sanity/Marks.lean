import Oregon.Sanity.Invariant

/-! Which blocks a failed reorganization marks, as a function of the state it is tried
in and the block delivered; and records without an invalid ancestor. -/

namespace Oregon

open Lib

section

variable [Crypto]

/-- The header that a request brings. -/
def Request.header? : Request → Option BlockHeader
  | .acceptHeader header => some header
  | .acceptBlock block => some block.header
  | .prune => none

/-- No fault stops the call: the session is healthy, the write goes through and the
engine works, if a new header needs it. -/
structure Unhindered (s : ChainState) (call : Call) : Prop where
  healthy : s.sessionHealth = .healthy
  write : call.faults.write = none
  engine : ∀ header, call.request.header? = some header → s.db.getIndex header.blockId = none →
    call.faults.engine = none

/-- The record that a call works on for a header it brings: the known one, as long as its
body is wanted, or the one that the checks of the header give. There is none when the
header is refused, the session is closed or the write fails. -/
def candidateRecord (s : ChainState) (header : BlockHeader) (faults : Faults) :
    Option BlockIndexRecord :=
  if s.sessionHealth = .healthy ∧ faults.write = none then
    match s.db.getIndex header.blockId with
    | some r => if r.validation = .headerValidated ∧ r.bodyRetained = false then some r else none
    | none => (validateCandidateHeader s header faults.engine).toOption
  else none

/-- The end of the heavier branch that `block` completes, from the first block on that
does not connect; empty when there is no such branch, when it forks too deep or when all
of it connects. -/
def rejectedSuffix (verifier : SpendVerifier) (s : ChainState) (block : Block) (faults : Faults) :
    List ReorgCandidate :=
  match candidateRecord s block.header faults with
  | none => []
  | some index =>
    if index.parent = s.tip.blockId ∨ index.cumulativeWork ≤ s.tip.cumulativeWork then []
    else
      match reorgPlan s block index with
      | .error _ => []
      | .ok plan =>
        if REORG_WINDOW < s.tip.height - plan.forkHeight then []
        else
          match disconnectActive s.utxos ∅ plan.oldActive with
          | .error _ => []
          | .ok (base, delta) =>
            match connectCandidates s.config.params verifier plan.candidate base delta with
            | .error (.invalid suffix _) => suffix
            | _ => []

/-- The blocks that delivering `block` marks. -/
def rejectedIds (verifier : SpendVerifier) (s : ChainState) (block : Block) (faults : Faults) :
    List Hash256 :=
  (rejectedSuffix verifier s block faults).map ReorgCandidate.id

variable {verifier : SpendVerifier} {s : ChainState} {block : Block} {index : BlockIndexRecord}
  {call : Call}

theorem perform_kept {α : Type} {fault : Option String} {action : Result (Action α)}
    (h : fault ≠ none ∨ ∀ c, action ≠ .ok (.commit c)) : (s.perform fault action).1 = s := by
  rcases perform_cases s fault action with ⟨e, -, hp⟩ | ⟨reply, -, hp⟩ | ⟨c, hc, ⟨e, hp⟩ | ⟨hf, -, -⟩⟩
  · rw [hp]
  · rw [hp]
  · rw [hp]
  · rcases h with hfault | hanswer
    · exact absurd hf hfault
    · exact absurd hc (hanswer c)

theorem noteFault_kept {α : Type} {header : BlockHeader} {faults : Faults}
    {action : Result (Action α)} (hengine : ∀ c, s.db.getIndex header.blockId = none →
      action = .ok (.commit c) → faults.engine = none) :
    (faults.write = none ∧ (s.db.getIndex header.blockId = none → faults.engine = none)) ∨
    ∃ health, (noteFault (s.perform faults.write action)).1 = { s with sessionHealth := health } := by
  by_cases hgo : faults.write = none ∧ (s.db.getIndex header.blockId = none → faults.engine = none)
  · exact Or.inl hgo
  have hkept : (s.perform faults.write action).1 = s := by
    refine perform_kept ?_
    rcases not_and_or.mp hgo with hwrite | hfault
    · exact Or.inl hwrite
    · obtain ⟨hunknown, hfault⟩ := Classical.not_imp.mp hfault
      exact Or.inr fun c hc => hfault (hengine c hunknown hc)
  right
  unfold noteFault
  split
  · exact ⟨.storageFaulted, by rw [hkept]⟩
  · exact ⟨s.sessionHealth, hkept⟩

theorem validateCandidateHeader_engine {header : BlockHeader} {engine : Option PowError}
    (h : validateCandidateHeader s header engine = .ok index) : engine = none := by
  simp only [validateCandidateHeader, bind_eq_ok] at h
  obtain ⟨_, -, _, -, _, -, _, -, _, -, _, -, _, -, _, hengine, -⟩ := h
  cases engine with
  | none => rfl
  | some e => cases hengine

theorem acceptHeaderHealthy_engine {header : BlockHeader} {engine : Option PowError}
    {c : Commit HeaderImportOutcome} (hunknown : s.db.getIndex header.blockId = none)
    (h : acceptHeaderHealthy s header engine = .ok (.commit c)) : engine = none := by
  simp only [acceptHeaderHealthy, hunknown, bind_eq_ok] at h
  obtain ⟨_, hindex, -⟩ := h
  exact validateCandidateHeader_engine hindex

theorem acceptBlockHealthy_engine {engine : Option PowError} {c : Commit AcceptOutcome}
    (hunknown : s.db.getIndex block.header.blockId = none)
    (h : acceptBlockHealthy s block verifier engine = .ok (.commit c)) : engine = none := by
  simp only [acceptBlockHealthy, hunknown, bind_eq_ok] at h
  obtain ⟨_, hindex, -⟩ := h
  exact validateCandidateHeader_engine hindex

variable (verifier s) in
/-- A call that a fault stops changes nothing but the health of the session. -/
theorem step_unhindered (call : Call) : Unhindered s call ∨
    ∃ health, (step verifier s call).1 = { s with sessionHealth := health } := by
  obtain ⟨request, faults⟩ := call
  cases hallowed : s.ensureMutationAllowed with
  | error e =>
    refine Or.inr ⟨s.sessionHealth, ?_⟩
    cases request <;>
      simp only [step, ChainState.acceptHeader, ChainState.acceptBlock, ChainState.prune, hallowed]
  | ok _ =>
    have hhealthy : s.sessionHealth = .healthy := by
      unfold ChainState.ensureMutationAllowed at hallowed
      split at hallowed <;> simp_all
    cases request with
    | acceptHeader header =>
      simp only [step, ChainState.acceptHeader, hallowed]
      refine (noteFault_kept fun c => acceptHeaderHealthy_engine).imp (fun hgo => ?_) id
      exact ⟨hhealthy, hgo.1, fun _ heq => Option.some.inj heq ▸ hgo.2⟩
    | acceptBlock block =>
      simp only [step, ChainState.acceptBlock, hallowed]
      refine (noteFault_kept fun c => acceptBlockHealthy_engine).imp (fun hgo => ?_) id
      exact ⟨hhealthy, hgo.1, fun _ heq => Option.some.inj heq ▸ hgo.2⟩
    | prune =>
      by_cases hwrite : faults.write = none
      · exact Or.inl ⟨hhealthy, hwrite, fun _ heq => by cases heq⟩
      · simp only [step, ChainState.prune, hallowed]
        exact Or.inr ⟨s.sessionHealth, perform_kept (Or.inl hwrite)⟩

/-- What a call leaves is shown for a state that differs in its health only, and for the change
of a call that no fault stops. -/
theorem step_rule {Q : ChainState → Prop} (hs : Consistent s) (call : Call)
    (hidle : ∀ health, Q { s with sessionHealth := health })
    (hchange : ∀ s', Unhindered s call → Change verifier s call.request s' → Q s') :
    Q (step verifier s call).1 := by
  rcases step_unhindered verifier s call with hopen | ⟨health, heq⟩
  · exact hchange _ hopen (step_change hs call)
  · rw [heq]
    exact hidle health

theorem Fresh.record_eq (hfresh : Fresh s index) (hopen : Unhindered s call)
    (hheader : call.request.header? = some index.header) :
    candidateRecord s index.header call.faults = some index := by
  obtain ⟨engine, hchecked⟩ := hfresh.checked
  obtain rfl := validateCandidateHeader_engine hchecked
  simp only [candidateRecord, hopen.healthy, hopen.write, hfresh.unknown,
    hopen.engine _ hheader hfresh.unknown, hchecked, and_self, if_true]
  rfl

theorem Candidate.record_eq (hc : Candidate s block index) (hopen : Unhindered s call)
    (hblock : call.request = .acceptBlock block) :
    candidateRecord s block.header call.faults = some index := by
  rcases hc.source with hknown | hfresh
  · simp only [candidateRecord, hopen.healthy, hopen.write, hknown, hc.status, hc.body, and_self,
      if_true]
  · rw [← hc.header]
    exact hfresh.record_eq hopen (by rw [hblock, hc.header]; rfl)

theorem Rejects.ids_eq {forkHeight : ℕ} {path suffix : List ReorgCandidate}
    (h : Rejects verifier s block index forkHeight path suffix) (hopen : Unhindered s call)
    (hblock : call.request = .acceptBlock block) :
    rejectedIds verifier s block call.faults = suffix.map ReorgCandidate.id := by
  obtain ⟨old, base, delta, e, hplan, hdisconnect, hconnect⟩ := h.utxo
  have hroute : ¬ (index.parent = s.tip.blockId ∨ index.cumulativeWork ≤ s.tip.cumulativeWork) := by
    rintro (hparent | hlight)
    · exact h.parent hparent
    · exact absurd h.heavy (Nat.not_lt.mpr hlight)
  have hdepth : ¬ REORG_WINDOW < s.tip.height - forkHeight := Nat.not_lt.mpr h.pathOk.depth
  simp only [rejectedIds, rejectedSuffix, h.candidate.record_eq hopen hblock, if_neg hroute, hplan,
    if_neg hdepth, hdisconnect, hconnect]

/-- Only a failed reorganization marks: a block that a call marks is at the end of the
branch it rejects, and then all of that end is marked and nothing else changes. -/
theorem Change.marked_cases {s' : ChainState} {a : Hash256} {r r' : BlockIndexRecord}
    (hc : Change verifier s call.request s') (hopen : Unhindered s call)
    (hr : s.db.getIndex a = some r) (hr' : s'.db.getIndex a = some r')
    (hinvalid : r'.validation = .invalid) :
    r.validation = .invalid ∨
      ∃ block, call.request = .acceptBlock block ∧ a ∈ rejectedIds verifier s block call.faults ∧
        ∀ id q, s'.db.getIndex id = some q →
          (id ∉ rejectedIds verifier s block call.faults ∧ s.db.getIndex id = some q) ∨
          (id ∈ rejectedIds verifier s block call.faults ∧ q.validation = .invalid) := by
  obtain ⟨request, faults⟩ := call
  cases hc with
  | idle =>
    obtain rfl := Option.some.inj (hr.symm.trans hr')
    exact Or.inl hinvalid
  | headerStored fresh =>
    rw [storeHeader_getIndex, if_neg (fresh.ne_known hr)] at hr'
    simp_all
  | sideStored candidate =>
    rw [storeSide_getIndex] at hr'
    split_ifs at hr' with heq
    · obtain rfl := Option.some.inj hr'
      cases candidate.status.symm.trans hinvalid
    · simp_all
  | marked rejects =>
    rcases lookup_pathRecords hr' with ⟨-, hold⟩ | ⟨c, hmem, rfl, -⟩
    · simp_all
    · refine Or.inr ⟨_, rfl, ?_⟩
      rw [rejects.ids_eq hopen rfl]
      refine ⟨List.mem_map_of_mem hmem, fun id q hq => ?_⟩
      rcases lookup_pathRecords hq with hold | ⟨d, hd, rfl, rfl⟩
      · exact Or.inl hold
      · exact Or.inr ⟨List.mem_map_of_mem hd, rfl⟩
  | adopted adopts =>
    rw [reorgTo_getIndex] at hr'
    rcases lookup_pathRecords hr' with ⟨-, hold⟩ | ⟨c, -, rfl, rfl⟩
    · simp_all
    · cases hinvalid
  | pruned pruned =>
    obtain ⟨r₀, hr₀, rfl⟩ := pruned.getIndex_some hr'
    simp_all

theorem Candidate.valid (hc : Candidate s block index) {r : BlockIndexRecord}
    (hr : s.db.getIndex block.header.blockId = some r) : r.validation ≠ .invalid := by
  rcases hc.source_eq with hknown | ⟨hfresh, hid⟩
  · obtain rfl := Option.some.inj (hr.symm.trans hknown)
    rw [hc.status]
    decide
  · exact absurd hid (hfresh.ne_known hr)

theorem PathOk.valid {forkHeight : ℕ} {path : List ReorgCandidate} (hc : Candidate s block index)
    (hp : PathOk s block index forkHeight path) {c : ReorgCandidate} (hmem : c ∈ path)
    {r : BlockIndexRecord} (hr : s.db.getIndex c.id = some r) : r.validation ≠ .invalid := by
  obtain ⟨_, _, -, -, -, hbranch⟩ := hp.fork
  have hvalid := (hbranch.side_valid c.node (List.mem_map_of_mem hmem)).2
  obtain ⟨below, rfl, hbelow⟩ := hp.last
  rcases List.mem_append.mp hmem with hlow | htop
  · obtain rfl := Option.some.inj (hr.symm.trans (hbelow c hlow).1)
    exact hvalid
  · rw [List.mem_singleton.mp htop] at hr
    exact hc.valid hr

theorem Change.stays_marked {request : Request} {s' : ChainState} {a : Hash256}
    {r r' : BlockIndexRecord} (hc : Change verifier s request s') (hr : s.db.getIndex a = some r)
    (hinvalid : r.validation = .invalid) (hr' : s'.db.getIndex a = some r') :
    r'.validation = .invalid := by
  cases hc with
  | idle => rwa [Option.some.inj (hr'.symm.trans hr)]
  | headerStored fresh =>
    rw [storeHeader_getIndex, if_neg (fresh.ne_known hr)] at hr'
    rwa [Option.some.inj (hr'.symm.trans hr)]
  | sideStored candidate =>
    rw [storeSide_getIndex] at hr'
    split_ifs at hr' with heq
    · exact absurd hinvalid (candidate.valid (heq ▸ hr))
    · rwa [Option.some.inj (hr'.symm.trans hr)]
  | marked rejects =>
    rcases lookup_pathRecords hr' with ⟨-, hold⟩ | ⟨c, -, -, rfl⟩
    · rwa [Option.some.inj (hold.symm.trans hr)]
    · rfl
  | adopted adopts =>
    rw [reorgTo_getIndex] at hr'
    rcases lookup_pathRecords hr' with ⟨-, hold⟩ | ⟨c, hmem, rfl, -⟩
    · rwa [Option.some.inj (hold.symm.trans hr)]
    · exact absurd hinvalid (adopts.pathOk.valid adopts.candidate hmem hr)
  | pruned pruned =>
    obtain ⟨r₀, hr₀, rfl⟩ := pruned.getIndex_some hr'
    simp_all

/-- `P` holds of every call of a run in the state the call is made in. -/
def Meets (P : ChainState → Call → Prop) (verifier : SpendVerifier) : ChainState → List Call → Prop
  | _, [] => True
  | s, call :: calls => P s call ∧ Meets P verifier (step verifier s call).1 calls

theorem Meets.nil {P : ChainState → Call → Prop} : Meets P verifier s [] := trivial

theorem Meets.snoc {P : ChainState → Call → Prop} {calls : List Call} {call : Call}
    (h : Meets P verifier s calls) (hcall : P (run verifier s calls) call) :
    Meets P verifier s (calls ++ [call]) := by
  induction calls generalizing s with
  | nil => exact ⟨hcall, trivial⟩
  | cons c calls ih => exact ⟨h.1, ih h.2 hcall⟩

/-- What every call that meets a condition keeps, every run of such calls keeps. -/
theorem Meets.run_inv {P : ChainState → Call → Prop} {Q : ChainState → Prop} {calls : List Call}
    (h : Meets P verifier s calls) (init : Q s)
    (hstep : ∀ t call, P t call → Q t → Q (step verifier t call).1) :
    Q (run verifier s calls) := by
  induction calls generalizing s with
  | nil => exact init
  | cons call calls ih => exact ih h.2 (hstep s call h.1 init)

theorem Meets.exists_state {P : ChainState → Call → Prop} {calls : List Call} {call : Call}
    (h : Meets P verifier s calls) (hmem : call ∈ calls) : ∃ t, P t call := by
  induction calls generalizing s with
  | nil => cases hmem
  | cons first calls ih =>
    rcases List.mem_cons.mp hmem with rfl | hmem
    · exact ⟨s, h.1⟩
    · exact ih h.2 hmem

/-- No record on the way from `id` to the anchor is marked invalid. -/
def Sound (index : Std.ExtTreeMap Hash256 BlockIndexRecord) (id : Hash256) : Prop :=
  ∀ a r, Ancestor index a id → index[a]? = some r → r.validation ≠ .invalid

theorem Evolves.ancestor {index' : Std.ExtTreeMap Hash256 BlockIndexRecord} {a id : Hash256}
    (hok : IndexOk s.config s.db.blockIndex) (he : Evolves s index')
    (h : Ancestor index' a id) (hknown : ∃ r, s.db.getIndex id = some r) :
    Ancestor s.db.blockIndex a id ∧ ∃ r, s.db.getIndex a = some r := by
  induction h with
  | self => exact ⟨.self, hknown⟩
  | @up id r' found high _ ih =>
    obtain ⟨r, hr⟩ := hknown
    obtain ⟨r'', hr'', hshape⟩ := he.known id r hr
    obtain rfl := Option.some.inj (hr''.symm.trans found)
    rw [hshape.2.2.1] at high
    rw [hshape.2.1] at ih
    rcases hok.linked id r hr with rfl | ⟨p, hp, -⟩
    · change s.db.blockIndex[s.config.anchorHeader.blockId]? = some r at hr
      rw [hok.anchor] at hr
      obtain rfl := Option.some.inj hr
      exact absurd rfl high
    · obtain ⟨hup, hfound⟩ := ih ⟨p, hp⟩
      exact ⟨.up hr high hup, hfound⟩

theorem Sound.evolves {index' : Std.ExtTreeMap Hash256 BlockIndexRecord} {id : Hash256}
    (h : Sound s.db.blockIndex id) (hok : IndexOk s.config s.db.blockIndex) (he : Evolves s index')
    (hknown : ∃ r, s.db.getIndex id = some r)
    (hstatus : ∀ (a : Hash256) (r r' : BlockIndexRecord), Ancestor s.db.blockIndex a id →
      s.db.getIndex a = some r → index'[a]? = some r' → r'.validation = .invalid →
      r.validation = .invalid) : Sound index' id := by
  intro a r' ha hr' hinvalid
  obtain ⟨hold, r, hr⟩ := he.ancestor hok ha hknown
  exact h a r hold hr (hstatus a r r' hold hr hr' hinvalid)

theorem ActiveOk.ancestor (h : ActiveOk s) {a id : Hash256} (ha : Ancestor s.db.blockIndex a id)
    (hid : ∃ height, s.db.activeIdAtHeight height = some id) :
    ∃ height, s.db.activeIdAtHeight height = some a := by
  induction ha with
  | self => exact hid
  | @up id r found high _ ih =>
    obtain ⟨height, hactive⟩ := hid
    obtain ⟨r', hr', hheight, -, hparent⟩ := h.record height id hactive
    obtain rfl := Option.some.inj (hr'.symm.trans found)
    exact ih ⟨height - 1, hparent (height - 1) (by omega)⟩

theorem ActiveOk.defined (h : ActiveOk s) {height : ℕ} (hle : height ≤ s.tip.height) :
    ∃ id, s.db.activeIdAtHeight height = some id := by
  induction hle using Nat.decreasingInduction with
  | self => exact ⟨_, h.top⟩
  | of_succ k _ ih =>
    obtain ⟨id, hid⟩ := ih
    obtain ⟨r, -, -, -, hparent⟩ := h.record (k + 1) id hid
    exact ⟨r.parent, hparent k rfl⟩

theorem ActiveOk.descends (h : ActiveOk s) {low high : ℕ} {a id : Hash256} (hle : low ≤ high)
    (ha : s.db.activeIdAtHeight low = some a) (hid : s.db.activeIdAtHeight high = some id) :
    Ancestor s.db.blockIndex a id := by
  induction hle generalizing id with
  | refl =>
    obtain rfl := Option.some.inj (ha.symm.trans hid)
    exact .self
  | @step high _ ih =>
    obtain ⟨r, hr, hheight, -, hparent⟩ := h.record _ id hid
    exact .up hr (by omega) (ih (hparent high rfl))

theorem ActiveOk.sound (h : ActiveOk s) {id : Hash256} {height : ℕ}
    (hid : s.db.activeIdAtHeight height = some id) : Sound s.db.blockIndex id := by
  intro a r ha hr
  obtain ⟨k, hk⟩ := h.ancestor ha ⟨height, hid⟩
  obtain ⟨r', hr', -, hfull, -⟩ := h.record k a hk
  obtain rfl := Option.some.inj (hr'.symm.trans hr)
  rw [hfull]
  decide

end

end Oregon
