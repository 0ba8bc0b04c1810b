import Oregon.Lib.Stateful
import Oregon.Proofs.StateMap
import Oregon.Sanity.Journal

/-! The journal as a stack of writes. A history keeps, next to the journal, the writes of
each live frame in order and what reads returned when each child frame was begun. Reads
are answered by the newest live write, commits change none of them, and a revert brings
back those of the beginning of its frame. -/

namespace Oregon.Execution

open Lib ContractState

inductive JournalCall where
  | read (domain : CommitmentDomainId) (key : Bytes)
  | put (domain : CommitmentDomainId) (key value : Bytes)
  | delete (domain : CommitmentDomainId) (key : Bytes)
  | beginFrame
  | commitFrame
  | revertFrame

structure JournalWrite where
  domain : CommitmentDomainId
  key : Bytes
  value : JournalValue

/-- The newest write to a key, with the newest frame and its newest write first. -/
def newest (log : List (List JournalWrite)) (domain : CommitmentDomainId) (key : Bytes) :
    Option JournalValue :=
  (log.flatten.find? fun w => w.domain = domain ∧ w.key = key).map JournalWrite.value

theorem newest_cons (writes : List JournalWrite) (log : List (List JournalWrite))
    (domain : CommitmentDomainId) (key : Bytes) :
    newest (writes :: log) domain key = (newest [writes] domain key).or (newest log domain key) := by
  simp only [newest, List.flatten_cons, List.flatten_nil, List.append_nil, List.find?_append]
  cases writes.find? fun w => w.domain = domain ∧ w.key = key <;> rfl

theorem newest_append (child parent : List JournalWrite) (domain : CommitmentDomainId)
    (key : Bytes) : newest [child ++ parent] domain key =
      (newest [child] domain key).or (newest [parent] domain key) := by
  rw [← newest_cons, newest, newest, List.flatten_cons, List.flatten_cons, List.append_assoc]
  rfl

theorem newest_write (w : JournalWrite) (writes : List JournalWrite) (domain : CommitmentDomainId)
    (key : Bytes) : newest [w :: writes] domain key =
      if w.domain = domain ∧ w.key = key then some w.value else newest [writes] domain key := by
  unfold newest
  grind

/-- A frame that has written what the log of it says. -/
def Logged (frame : JournalFrame) (writes : List JournalWrite) : Prop :=
  ∀ domain key, frame.find domain key = newest [writes] domain key

theorem Logged.write {frame frame' : JournalFrame} {writes : List JournalWrite} {w : JournalWrite}
    (h : Logged frame writes) (hframe : frame'.writes = insert₂ frame.writes w.domain w.key w.value) :
    Logged frame' (w :: writes) := by
  intro domain key
  rw [newest_write, ← h domain key, JournalFrame.find, hframe, find₂_insert₂]
  rfl

theorem Logged.merged {parent child : JournalFrame} {log log' : List JournalWrite}
    (h : Logged parent log) (h' : Logged child log') :
    Logged (parent.merged child) (log' ++ log) := by
  intro domain key
  rw [newest_append, ← h domain key, ← h' domain key, find_merged]

/-- The pending write of the frames is the newest write of the log. -/
theorem pending_eq_newest {frames : List JournalFrame} {log : List (List JournalWrite)}
    {domain : CommitmentDomainId} {key : Bytes} (h : List.Forall₂ Logged frames log) :
    frames.findSome? (fun frame => frame.find domain key) = newest log domain key := by
  induction h with
  | nil => rfl
  | @cons frame _ _ _ hframe _ ih =>
    rw [List.findSome?_cons, newest_cons, ← hframe domain key, ← ih]
    cases frame.find domain key <;> rfl

/-- The stacks beneath the frames of a stack, but not the empty one. -/
def beneath {α : Type} : List α → List (List α)
  | [] => []
  | [_] => []
  | _ :: b :: l => (b :: l) :: beneath (b :: l)

theorem beneath_cons {α : Type} (a b : α) (l : List α) : beneath (a :: l) = beneath (b :: l) := by
  cases l <;> rfl

/-- A write is logged in the newest frame. -/
def logWrite (w : JournalWrite) : List (List JournalWrite) → List (List JournalWrite)
  | [] => []
  | top :: below => (w :: top) :: below

/-- The writes of the child come after those of its parent. -/
def logCommit : List (List JournalWrite) → List (List JournalWrite)
  | child :: parent :: below => (child ++ parent) :: below
  | log => log

/-- A call that changes the journal has nothing to return. -/
def changing (f : ExecutionJournalV1 → Except JournalError ExecutionJournalV1) :
    Stateful ExecutionJournalV1 JournalError (Option Bytes) := do
  update f
  pure none

theorem changing_ok {f : ExecutionJournalV1 → Except JournalError ExecutionJournalV1}
    {j j' : ExecutionJournalV1} (h : f j = .ok j') : perform (changing f) j = (.ok none, j') :=
  perform_bind_ok (perform_update_ok h)

theorem changing_error {f : ExecutionJournalV1 → Except JournalError ExecutionJournalV1}
    {j : ExecutionJournalV1} {e : JournalError} (h : f j = .error e) :
    perform (changing f) j = (.error e, j) :=
  perform_bind_error (perform_update_error h)

section

variable [Crypto]

def JournalCall.run : JournalCall → Stateful ExecutionJournalV1 JournalError (Option Bytes)
  | .read domain key => do
    let j ← get
    check (j.read domain key)
  | .put domain key value => changing fun j => j.put domain key value
  | .delete domain key => changing fun j => j.delete domain key
  | .beginFrame => changing ExecutionJournalV1.beginFrame
  | .commitFrame => changing ExecutionJournalV1.commitFrame
  | .revertFrame => changing ExecutionJournalV1.revertFrame

/-- What a call returns, and the journal that it leaves. -/
def ExecutionJournalV1.call (j : ExecutionJournalV1) (call : JournalCall) :
    Except JournalError (Option Bytes) × ExecutionJournalV1 :=
  perform call.run j

structure JournalHistory where
  journal : ExecutionJournalV1
  log : List (List JournalWrite)
  begun : List (CommitmentDomainId → Bytes → Except JournalError (Option Bytes))

/-- What a call that succeeded adds to the history. -/
def JournalHistory.record (h : JournalHistory) (j : ExecutionJournalV1) :
    JournalCall → JournalHistory
  | .read _ _ => { h with journal := j }
  | .put domain key value => { h with journal := j, log := logWrite ⟨domain, key, some value⟩ h.log }
  | .delete domain key => { h with journal := j, log := logWrite ⟨domain, key, none⟩ h.log }
  | .beginFrame => ⟨j, [] :: h.log, h.journal.read :: h.begun⟩
  | .commitFrame => ⟨j, logCommit h.log, h.begun.tail⟩
  | .revertFrame => ⟨j, h.log.tail, h.begun.tail⟩

def JournalHistory.step (h : JournalHistory) (call : JournalCall) : JournalHistory :=
  match h.journal.call call with
  | (.ok _, j) => h.record j call
  | (.error _, j) => { h with journal := j }

def JournalHistory.run (h : JournalHistory) (calls : List JournalCall) : JournalHistory :=
  calls.foldl JournalHistory.step h

/-- Frames and history agree. -/
structure JournalHistory.Inv (source : StateSource) (snapshots : List DomainSnapshot)
    (h : JournalHistory) : Prop where
  journal : h.journal.Inv
  source : h.journal.source = source
  snapshots : ∀ domain snapshot, h.journal.snapshots[domain]? = some snapshot →
    snapshot ∈ snapshots ∧ snapshot.domain = domain
  logged : List.Forall₂ Logged h.journal.frames h.log
  begun : h.begun = (beneath h.journal.frames).map fun frames =>
    (h.journal.withFrames frames).read

variable {source : StateSource} {snapshots : List DomainSnapshot} {h : JournalHistory}
  {j j' : ExecutionJournalV1}

/-- Reads over the same frames and the same base are the same. -/
theorem read_withFrames (hbase : SameBase j j') (frames : List JournalFrame) :
    (j'.withFrames frames).read = (j.withFrames frames).read := by
  have hbase' : SameBase (j.withFrames frames) (j'.withFrames frames) :=
    ⟨hbase.source, hbase.context, hbase.snapshots, hbase.limits⟩
  funext domain key
  exact hbase'.read_eq rfl

/-- What stays when the base stays. -/
theorem JournalHistory.Inv.keep (hinv : h.Inv source snapshots) (hbase : SameBase h.journal j)
    (hj : j.Inv) {log : List (List JournalWrite)} (hlog : List.Forall₂ Logged j.frames log)
    {begun : List (CommitmentDomainId → Bytes → Except JournalError (Option Bytes))}
    (hbegun : begun = (beneath j.frames).map fun frames => (h.journal.withFrames frames).read) :
    JournalHistory.Inv source snapshots ⟨j, log, begun⟩ where
  journal := hj
  source := hbase.source.trans hinv.source
  snapshots := by
    rw [hbase.snapshots]
    exact hinv.snapshots
  logged := hlog
  begun := by
    grind [read_withFrames]

theorem JournalHistory.Inv.staged (hinv : h.Inv source snapshots) {w : JournalWrite}
    (hstaged : Staged h.journal w.domain w.key w.value j) :
    JournalHistory.Inv source snapshots ⟨j, logWrite w h.log, h.begun⟩ := by
  obtain ⟨top, top', below, hframes, hframes', hwrites, -⟩ := hstaged.frames
  have hlogged := hinv.logged
  rw [hframes, List.forall₂_cons_left_iff] at hlogged
  obtain ⟨writes, log, htop, hbelow, hlog⟩ := hlogged
  refine hinv.keep hstaged.base (hstaged.inv hinv.journal) ?_ ?_
  · rw [hframes', hlog]
    exact .cons (htop.write hwrites) hbelow
  · rw [hinv.begun, hframes, hframes', beneath_cons]

theorem JournalHistory.Inv.begins (hinv : h.Inv source snapshots)
    (hbegin : h.journal.beginFrame = .ok j) :
    JournalHistory.Inv source snapshots ⟨j, [] :: h.log, h.journal.read :: h.begun⟩ := by
  obtain ⟨hj, hbase, hframes⟩ := beginFrame_ok hinv.journal hbegin
  refine hinv.keep hbase hj ?_ ?_
  · rw [hframes]
    refine .cons (fun domain key => ?_) hinv.logged
    simp [JournalFrame.find, JournalFrame.default, find₂, newest]
  · obtain ⟨top, below, hbelow⟩ := List.exists_cons_of_ne_nil hinv.journal.frames
    have hread : (h.journal.withFrames h.journal.frames).read = h.journal.read := by
      funext domain key
      exact (SameBase.withFrames ..).read_eq rfl
    rw [hinv.begun, hframes]
    rw [hbelow] at hread ⊢
    rw [beneath, List.map_cons, hread]

theorem JournalHistory.Inv.reverts (hinv : h.Inv source snapshots)
    (hrevert : h.journal.revertFrame = .ok j) :
    JournalHistory.Inv source snapshots ⟨j, h.log.tail, h.begun.tail⟩ ∧
      ∃ rest, h.begun = j.read :: rest := by
  have hlength : h.journal.frames.length ≠ 1 := by
    grind [ExecutionJournalV1.revertFrame, bind_eq_ok, ensure_eq_ok]
  obtain ⟨child, parent, below, hframes⟩ := exists_cons_cons hinv.journal.frames hlength
  obtain rfl := Except.ok.inj ((revertFrame_ok hinv.journal hframes).symm.trans hrevert)
  have hlogged := hinv.logged
  have hbegun := hinv.begun
  rw [hframes] at hlogged hbegun
  refine ⟨hinv.keep (.withFrames ..) (hinv.journal.below hframes) ?_ ?_, _, hbegun⟩
  · rw [List.forall₂_cons_left_iff] at hlogged
    obtain ⟨writes, log, -, hbelow, hlog⟩ := hlogged
    rw [hlog]
    exact hbelow
  · rw [hbegun]
    rfl

theorem JournalHistory.Inv.commits (hinv : h.Inv source snapshots)
    (hcommit : h.journal.commitFrame = .ok j) :
    JournalHistory.Inv source snapshots ⟨j, logCommit h.log, h.begun.tail⟩ ∧
      ∀ domain key, j.read domain key = h.journal.read domain key := by
  have hlength : h.journal.frames.length ≠ 1 := by
    grind [ExecutionJournalV1.commitFrame, bind_eq_ok, ensure_eq_ok]
  obtain ⟨child, parent, below, hframes⟩ := exists_cons_cons hinv.journal.frames hlength
  obtain rfl := Except.ok.inj ((commitFrame_ok hinv.journal hframes).symm.trans hcommit)
  have hlogged := hinv.logged
  have hbegun := hinv.begun
  rw [hframes] at hlogged hbegun
  refine ⟨hinv.keep (.withFrames ..) (hinv.journal.merged hframes) ?_ ?_,
    fun domain key => (SameBase.withFrames ..).read_eq (pending_merged hframes domain key)⟩
  · simp only [List.forall₂_cons_left_iff] at hlogged
    obtain ⟨writes, _, hchild, ⟨writes', log, hparent, hbelow, rfl⟩, hlog⟩ := hlogged
    rw [hlog]
    exact .cons (hparent.merged hchild) hbelow
  · rw [hbegun]
    exact congrArg _ (beneath_cons ..)

theorem JournalHistory.Inv.step (hinv : h.Inv source snapshots) (call : JournalCall) :
    (h.step call).Inv source snapshots := by
  -- a call that fails leaves the history as it is
  have hchanging : ∀ {f : ExecutionJournalV1 → Except JournalError ExecutionJournalV1},
      (∀ j, f h.journal = .ok j → (h.record j call).Inv source snapshots) →
      call.run = changing f → (h.step call).Inv source snapshots := by
    intro f hok hrun
    rw [JournalHistory.step, ExecutionJournalV1.call, hrun]
    cases hf : f h.journal with
    | ok j =>
      rw [changing_ok hf]
      exact hok j hf
    | error e =>
      rw [changing_error hf]
      exact hinv
  cases call with
  | read domain key =>
    have hcall : h.journal.call (.read domain key) = (h.journal.read domain key, h.journal) := rfl
    rw [JournalHistory.step, hcall]
    cases h.journal.read domain key <;> exact hinv
  | put domain key value =>
    exact hchanging (fun j hj => hinv.staged (w := ⟨domain, key, some value⟩) (stageWrite_ok hj)) rfl
  | delete domain key =>
    exact hchanging (fun j hj => hinv.staged (w := ⟨domain, key, none⟩) (stageWrite_ok hj)) rfl
  | beginFrame => exact hchanging (fun j hj => hinv.begins hj) rfl
  | commitFrame => exact hchanging (fun j hj => (hinv.commits hj).1) rfl
  | revertFrame => exact hchanging (fun j hj => (hinv.reverts hj).1) rfl

theorem JournalHistory.Inv.run (hinv : h.Inv source snapshots) (calls : List JournalCall) :
    (h.run calls).Inv source snapshots := by
  induction calls generalizing h with
  | nil => exact hinv
  | cons call calls ih => exact ih (hinv.step call)

/-- The journal after some calls. -/
def ExecutionJournalV1.after (j : ExecutionJournalV1) (calls : List JournalCall) :
    ExecutionJournalV1 :=
  calls.foldl (fun j call => (j.call call).2) j

theorem step_journal (h : JournalHistory) (call : JournalCall) :
    (h.step call).journal = (h.journal.call call).2 := by
  unfold JournalHistory.step
  split
  · next hcall =>
    rw [hcall]
    cases call <;> rfl
  · next hcall => rw [hcall]

theorem run_journal (h : JournalHistory) (calls : List JournalCall) :
    (h.run calls).journal = h.journal.after calls := by
  induction calls generalizing h with
  | nil => rfl
  | cons call calls ih =>
    change ((h.step call).run calls).journal = (h.journal.call call).2.after calls
    rw [ih, step_journal]

/-- The history of a new journal. -/
theorem history_new {context : JournalContextV1} {limits : JournalLimitsV1}
    (hnew : ExecutionJournalV1.new source context snapshots limits = .ok j) :
    JournalHistory.Inv source snapshots ⟨j, [[]], []⟩ := by
  obtain ⟨hj, hsource, hframes, hsnapshots⟩ := new_ok hnew
  refine ⟨hj, hsource, hsnapshots, ?_, ?_⟩
  · rw [hframes]
    refine .cons (fun domain key => ?_) .nil
    simp [JournalFrame.find, JournalFrame.default, find₂, newest]
  · rw [hframes]
    rfl

theorem after_inv {context : JournalContextV1} {limits : JournalLimitsV1}
    (hnew : ExecutionJournalV1.new source context snapshots limits = .ok j)
    (calls : List JournalCall) : (j.after calls).Inv ∧ (j.after calls).source = source := by
  have hinv := (history_new hnew).run calls
  have hjournal := run_journal ⟨j, [[]], []⟩ calls
  exact ⟨hjournal ▸ hinv.journal, hjournal ▸ hinv.source⟩

theorem JournalHistory.Inv.read (hinv : h.Inv source snapshots) {domain : CommitmentDomainId}
    {key : Bytes} {value : Option Bytes} (hread : h.journal.read domain key = .ok value) :
    match newest h.log domain key with
    | some written => value = written
    | none => ∃ snapshot ∈ snapshots, snapshot.domain = domain ∧
        readValue source snapshot key = .ok value := by
  simp only [ExecutionJournalV1.read, bind_eq_ok, configuredSnapshot_eq_ok,
    pending_eq_newest hinv.logged, hinv.source] at hread
  obtain ⟨snapshot, ⟨-, hsnapshot⟩, -, -, hread⟩ := hread
  cases hnewest : newest h.log domain key with
  | some written =>
    rw [hnewest] at hread
    exact (pure_eq_ok.mp hread).symm
  | none =>
    rw [hnewest] at hread
    obtain ⟨hmem, hdomain⟩ := hinv.snapshots domain snapshot hsnapshot
    exact ⟨snapshot, hmem, hdomain, mapError_eq_ok.mp hread⟩

end

namespace Sample

def context : JournalContextV1 := ⟨1, 2, 3, 4⟩

def snapshot : DomainSnapshot := ⟨.wasm, 5⟩

/-- A deletion in a child frame that is taken back. -/
def journalCalls : List JournalCall :=
  [.put .wasm [1] [2], .beginFrame, .delete .wasm [1], .revertFrame]

end Sample

end Oregon.Execution
