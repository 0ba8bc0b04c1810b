import Oregon.Sanity.Sample
import Oregon.Spec.Reserve

/-! Reserve transitions. A transition that is applied has found the live reserve it names and
leaves the one it creates, both told by its undo record; everything else stays, and the
record takes it back exactly. So the live reserve follows the claimed balances along
every run. -/

namespace Oregon

open Lib Std

/-- The state without an entry. -/
def UtxoState.dropped (s : UtxoState) : Option (OutPoint × UtxoEntry) → UtxoState
  | none => s
  | some (outpoint, _) => ⟨s.entries.erase outpoint⟩

/-- The state with one more entry. -/
def UtxoState.added (s : UtxoState) : Option (OutPoint × UtxoEntry) → UtxoState
  | none => s
  | some (outpoint, entry) => ⟨s.entries.insert outpoint entry⟩

theorem get_dropped (s : UtxoState) (e : Option (OutPoint × UtxoEntry)) (a : OutPoint) :
    (s.dropped e).get a = if e.map Prod.fst = some a then none else s.get a := by
  cases e with
  | none => rfl
  | some e =>
    simp only [Option.map_some, Option.some.injEq]
    exact lookup_erase s.entries e.1 a

theorem get_added (s : UtxoState) (e : Option (OutPoint × UtxoEntry)) (a : OutPoint) :
    (s.added e).get a = if e.map Prod.fst = some a then e.map Prod.snd else s.get a := by
  cases e with
  | none => rfl
  | some e =>
    simp only [Option.map_some, Option.some.injEq]
    exact lookup_insert s.entries e.1 a e.2

theorem UtxoState.ext_get {s s' : UtxoState} (h : ∀ a, s.get a = s'.get a) : s = s' := by
  exact congrArg UtxoState.mk (ExtTreeMap.ext_getElem? h)

theorem removeExact_eq_ok {s s' : UtxoState} {e : Option (OutPoint × UtxoEntry)}
    {f : OutPoint → ReserveTransitionError} : removeExact s e f = .ok s' ↔
      (∀ x ∈ e, s.get x.1 = some x.2) ∧ s.dropped e = s' := by
  cases e with
  | none => simp [removeExact, UtxoState.dropped, pure_eq_ok]
  | some e =>
    simp only [removeExact, UtxoState.dropped, bind_eq_ok, ensure_eq_ok, exists_and_left,
      exists_const, pure_eq_ok, Option.mem_some_iff, forall_eq']

theorem insertFresh_eq_ok {s s' : UtxoState} {e : Option (OutPoint × UtxoEntry)}
    {f : OutPoint → ReserveTransitionError} : insertFresh s e f = .ok s' ↔
      (∀ x ∈ e, s.get x.1 = none) ∧ s.added e = s' := by
  cases e with
  | none => simp [insertFresh, UtxoState.added, pure_eq_ok]
  | some e =>
    simp only [insertFresh, UtxoState.added, bind_eq_ok, ensure_eq_ok, exists_and_left,
      exists_const, pure_eq_ok, Option.mem_some_iff, forall_eq']

theorem mem_liveReserves {s : UtxoState} {x : OutPoint × UtxoEntry} :
    x ∈ liveReserves s ↔ s.get x.1 = some x.2 ∧ x.2.isReserve = true := by
  rw [liveReserves, List.mem_filter, ExtTreeMap.mem_toList_iff_getElem?_eq_some]
  rfl

/-- The live reserves are those of an optional entry as soon as they are the same entries. -/
theorem liveReserves_eq {s : UtxoState} {e : Option (OutPoint × UtxoEntry)}
    (h : ∀ x, x ∈ liveReserves s ↔ x ∈ e) : liveReserves s = e.toList := by
  have hnodup : (liveReserves s).Nodup :=
    (List.Nodup.of_map _ (nodup_toList_keys s.entries)).filter _
  have hmem : ∀ x, x ∈ liveReserves s ↔ x ∈ e.toList := fun x =>
    (h x).trans Option.mem_toList.symm
  cases e with
  | none => exact List.eq_nil_iff_forall_not_mem.mpr fun x hx => by simpa using (hmem x).mp hx
  | some e =>
    exact List.perm_singleton.mp
      ((List.perm_ext_iff_of_nodup hnodup (List.nodup_singleton e)).mpr hmem)

theorem ReserveTransitionV1.new_ok [Crypto] {parts : ReserveTransitionV1Parts}
    {t : ReserveTransitionV1} (h : ReserveTransitionV1.new parts = .ok t) :
    t.parts = parts ∧ parts.previousAmount + parts.nativeDepositTotal =
        t.newReserveAmount + parts.executionWithdrawalTotal + parts.executionFeeTotal ∧
      t.newReserveAmount = parts.newExecutionBalanceTotal ∧
      (t.newReserveOutpoint = none ↔ t.newReserveAmount = 0) := by
  simp only [ReserveTransitionV1.new, bind_eq_ok, ensure_eq_ok, orElse_eq_ok, exists_and_left,
    exists_const, pure_eq_ok] at h
  obtain ⟨-, afterDeposit, hadd, afterWithdrawal, hsub, amount, hsub', hbalance, -, -, -, -, rfl⟩ := h
  obtain ⟨hdeposit, -⟩ := checkedAdd_eq_some.mp hadd
  unfold checkedSub at hsub hsub'
  grind

theorem previousReserve_ok {s : UtxoState} {t : ReserveTransitionV1}
    {previous : Option (OutPoint × UtxoEntry)} (hone : (liveReserves s).length ≤ 1)
    (h : previousReserve (liveReserves s) t = .ok previous) : liveReserves s = previous.toList := by
  unfold previousReserve at h
  split at h
  · simp only [bind_eq_ok, ensure_eq_ok, exists_and_left, exists_const, pure_eq_ok] at h
    obtain ⟨hnil, rfl⟩ := h
    exact hnil
  · simp only [bind_eq_ok, orElse_eq_ok, ensure_eq_ok, exists_and_left, exists_const, pure_eq_ok,
      Prod.exists] at h
    obtain ⟨outpoint, entry, hhead, -, rfl⟩ := h
    cases hlive : liveReserves s with
    | nil => simp [hlive] at hhead
    | cons x rest => simp_all

theorem createdReserve_ok {s : UtxoState} {t : ReserveTransitionV1}
    {created : Option (OutPoint × UtxoEntry)} (h : createdReserve s t = .ok created) :
    (created = none ↔ t.newReserveOutpoint = none) ∧ ∀ x ∈ created, s.get x.1 = none ∧
      x.2.isReserve = true ∧ x.2.output.value.baseUnits = t.newReserveAmount := by
  unfold createdReserve at h
  split at h
  · next hnone =>
    obtain rfl := pure_eq_ok.mp h
    simp [hnone]
  · next outpoint hsome =>
    simp only [bind_eq_ok, ensure_eq_ok, exists_and_left, exists_const, pure_eq_ok, reserveAmount,
      mapError_eq_ok] at h
    obtain ⟨hfresh, value, hvalue, rfl⟩ := h
    refine ⟨by simp [hsome], fun x hx => ?_⟩
    obtain rfl := Option.mem_some_iff.mp hx
    refine ⟨hfresh, by simp [UtxoEntry.isReserve], ?_⟩
    unfold Amount.fromBaseUnits at hvalue
    split_ifs at hvalue
    cases hvalue
    rfl

/-- What an applied transition has done: the live reserve is replaced by the created one. -/
structure Replaced (s s' : UtxoState) (undo : ReserveUndoV1) : Prop where
  before : liveReserves s = undo.previous.toList
  fresh : ∀ x ∈ undo.created, s.get x.1 = none ∧ x.2.isReserve = true
  after : s' = (s.dropped undo.previous).added undo.created

namespace Replaced

variable {s s' : UtxoState} {undo : ReserveUndoV1} (h : Replaced s s' undo)

include h

theorem previous_live {x : OutPoint × UtxoEntry} (hx : x ∈ undo.previous) :
    s.get x.1 = some x.2 ∧ x.2.isReserve = true := by
  rw [← mem_liveReserves, h.before]
  exact Option.mem_toList.mpr hx

theorem get_after (a : OutPoint) : s'.get a =
    if undo.created.map Prod.fst = some a then undo.created.map Prod.snd
    else if undo.previous.map Prod.fst = some a then none else s.get a := by
  rw [h.after, get_added, get_dropped]

/-- The created reserve is not at the place of the previous one. -/
theorem apart {x : OutPoint × UtxoEntry} (hx : x ∈ undo.previous) :
    undo.created.map Prod.fst ≠ some x.1 := by
  intro heq
  obtain ⟨y, hy, hfst⟩ := Option.map_eq_some_iff.mp heq
  have hnone := (h.fresh y hy).1
  rw [hfst, (h.previous_live hx).1] at hnone
  cases hnone

theorem live_after : liveReserves s' = undo.created.toList := by
  refine liveReserves_eq fun x => ?_
  rw [mem_liveReserves, h.get_after]
  split_ifs with hcreated hprevious
  · obtain ⟨y, hy, hfst⟩ := Option.map_eq_some_iff.mp hcreated
    rw [hy, Option.map_some, Option.some.injEq, Option.mem_some_iff]
    constructor
    · grind
    · rintro rfl
      exact ⟨rfl, (h.fresh y hy).2⟩
  · simp_all
  · refine ⟨fun hx => absurd ?_ hprevious, fun hx => absurd ?_ hcreated⟩
    · rw [← mem_liveReserves, h.before, Option.mem_toList] at hx
      exact Option.map_eq_some_iff.mpr ⟨x, hx, rfl⟩
    · exact Option.map_eq_some_iff.mpr ⟨x, hx, rfl⟩

theorem others_stay {a : OutPoint} {entry : UtxoEntry} (hentry : entry.isReserve = false) :
    s'.get a = some entry ↔ s.get a = some entry := by
  rw [h.get_after]
  split_ifs with hcreated hprevious
  · obtain ⟨y, hy, rfl⟩ := Option.map_eq_some_iff.mp hcreated
    obtain ⟨hnone, hreserve⟩ := h.fresh y hy
    grind
  · obtain ⟨y, hy, rfl⟩ := Option.map_eq_some_iff.mp hprevious
    obtain ⟨hsome, hreserve⟩ := h.previous_live hy
    grind
  · rfl

theorem undone : undoOverlay s' undo = .ok s := by
  have hcreated : ∀ x ∈ undo.created, s'.get x.1 = some x.2 := by
    intro x hx
    rw [h.get_after, if_pos (Option.map_eq_some_iff.mpr ⟨x, hx, rfl⟩), Option.mem_def.mp hx]
    rfl
  have hprevious : ∀ x ∈ undo.previous, s'.get x.1 = none := by
    intro x hx
    rw [h.get_after, if_neg (h.apart hx), if_pos (Option.map_eq_some_iff.mpr ⟨x, hx, rfl⟩)]
  have hback : (s'.dropped undo.created).added undo.previous = s := by
    refine UtxoState.ext_get fun a => ?_
    rw [get_added, get_dropped, h.get_after]
    split_ifs with hp hc
    · obtain ⟨x, hx, rfl⟩ := Option.map_eq_some_iff.mp hp
      rw [(h.previous_live hx).1, Option.mem_def.mp hx]
      rfl
    · obtain ⟨x, hx, rfl⟩ := Option.map_eq_some_iff.mp hc
      exact (h.fresh x hx).1.symm
    · rfl
  have hcheck : checkCreated s' undo.created = .ok () := by
    cases hc : undo.created with
    | none =>
      rw [checkCreated, ensure_eq_ok, h.live_after, hc]
      rfl
    | some x =>
      rw [checkCreated, ensure_eq_ok, h.live_after, hc]
      exact ⟨rfl, hcreated x hc⟩
  have hfree : (undo.previous.toList.forM fun x =>
      ensure (s'.get x.1 = none) ReserveTransitionError.undoMismatch) = .ok () := by
    refine forM_eq_ok.mpr fun x hx => ensure_eq_ok.mpr ?_
    exact hprevious x (Option.mem_toList.mp hx)
  rw [undoOverlay, hcheck, ok_bind, hfree, ok_bind,
    removeExact_eq_ok.mpr ⟨hcreated, rfl⟩, ok_bind, insertFresh_eq_ok]
  refine ⟨fun x hx => ?_, hback⟩
  rw [get_dropped, hprevious x hx, ite_self]

end Replaced

theorem reserveOverlay_ok {s s' : UtxoState} {t : ReserveTransitionV1} {undo : ReserveUndoV1}
    (h : reserveOverlay s t = .ok (undo, s')) : Replaced s s' undo ∧
      (undo.created = none ↔ t.newReserveOutpoint = none) ∧
      ∀ x ∈ undo.created, x.2.output.value.baseUnits = t.newReserveAmount := by
  simp only [reserveOverlay, bind_eq_ok, ensure_eq_ok, exists_and_left, exists_const, pure_eq_ok,
    removeExact_eq_ok, insertFresh_eq_ok, Prod.mk.injEq] at h
  obtain ⟨hone, previous, hprevious, created, hcreated, _, ⟨-, rfl⟩, _, ⟨-, rfl⟩, rfl, rfl⟩ := h
  obtain ⟨hnone, hsome⟩ := createdReserve_ok hcreated
  exact ⟨⟨previousReserve_ok hone hprevious, fun x hx => ⟨(hsome x hx).1, (hsome x hx).2.1⟩, rfl⟩,
    hnone, fun x hx => (hsome x hx).2.2⟩

theorem validateAgainst_iff {s : UtxoState} {t : ReserveTransitionV1} :
    t.validateAgainst s = .ok () ↔ ∃ undo, (applyReserveTransitionV1 s t).1 = .ok undo := by
  unfold ReserveTransitionV1.validateAgainst applyReserveTransitionV1
  cases hoverlay : reserveOverlay s t with
  | error e => simp
  | ok r =>
    obtain ⟨undo, s'⟩ := r
    have hundo : undoReserveTransitionV1 s' undo = (.ok (), s) := by
      rw [undoReserveTransitionV1, (reserveOverlay_ok hoverlay).1.undone]
    simp only [ok_bind, hundo, Except.ok.injEq, exists_eq', ensure_eq_ok]

/-- What a transition does to a state. A call that fails leaves the state alone; one that
succeeds leaves exactly the new reserve, keeps every other entry, and is taken back by
its undo record. It validates exactly when it succeeds. -/
def ReserveExact (s : UtxoState) (t : ReserveTransitionV1) : Prop :=
  (t.validateAgainst s = .ok () ↔ ∃ undo, (applyReserveTransitionV1 s t).1 = .ok undo) ∧
  match applyReserveTransitionV1 s t with
  | (.error _, s') => s' = s
  | (.ok undo, s') =>
    let amount := t.parts.previousAmount + t.parts.nativeDepositTotal -
      t.parts.executionWithdrawalTotal - t.parts.executionFeeTotal
    (if amount = 0 then liveReserves s' = [] else
      ∃ outpoint entry, liveReserves s' = [(outpoint, entry)] ∧
        entry.output.value.baseUnits = amount) ∧
    (∀ outpoint entry, entry.isReserve = false →
      (s'.get outpoint = some entry ↔ s.get outpoint = some entry)) ∧
    undoReserveTransitionV1 s' undo = (.ok (), s)

theorem reserveExact [Crypto] {parts : ReserveTransitionV1Parts} {t : ReserveTransitionV1}
    (hnew : ReserveTransitionV1.new parts = .ok t) (s : UtxoState) : ReserveExact s t := by
  obtain ⟨rfl, hamount, -, hzero⟩ := ReserveTransitionV1.new_ok hnew
  refine ⟨validateAgainst_iff, ?_⟩
  unfold applyReserveTransitionV1
  cases hoverlay : reserveOverlay s t with
  | error e => rfl
  | ok r =>
    obtain ⟨undo, s'⟩ := r
    obtain ⟨hreplaced, hnone, hvalue⟩ := reserveOverlay_ok hoverlay
    have hexact : t.parts.previousAmount + t.parts.nativeDepositTotal -
        t.parts.executionWithdrawalTotal - t.parts.executionFeeTotal = t.newReserveAmount := by
      omega
    simp only [hexact]
    refine ⟨?_, fun _ _ => hreplaced.others_stay, by rw [undoReserveTransitionV1, hreplaced.undone]⟩
    rw [hreplaced.live_after]
    split_ifs with h0
    · rw [hnone.mpr (hzero.mpr h0)]
      rfl
    · cases hcreated : undo.created with
      | none => exact absurd (hzero.mp (hnone.mp hcreated)) h0
      | some x => exact ⟨x.1, x.2, rfl, hvalue x hcreated⟩

/-- Transitions one after the other, each built and applied. -/
def reserveRun [Crypto] : UtxoState → List ReserveTransitionV1Parts →
    Except ReserveTransitionError UtxoState
  | s, [] => pure s
  | s, parts :: rest => do
    let t ← ReserveTransitionV1.new parts
    let (result, s) := applyReserveTransitionV1 s t
    let _ ← result
    reserveRun s rest

/-- What the live reserves hold together. -/
def reserveTotal (s : UtxoState) : ℕ :=
  ((liveReserves s).map fun e => e.2.output.value.baseUnits).sum

theorem reserveTotal_applied [Crypto] {parts : ReserveTransitionV1Parts} {t : ReserveTransitionV1}
    {s s' : UtxoState} {undo : ReserveUndoV1} (hnew : ReserveTransitionV1.new parts = .ok t)
    (happly : applyReserveTransitionV1 s t = (.ok undo, s')) :
    reserveTotal s' = parts.newExecutionBalanceTotal := by
  obtain ⟨rfl, -, hbalance, hzero⟩ := ReserveTransitionV1.new_ok hnew
  unfold applyReserveTransitionV1 at happly
  cases hoverlay : reserveOverlay s t with
  | error e => simp [hoverlay] at happly
  | ok r =>
    rw [hoverlay] at happly
    obtain ⟨-, rfl⟩ := Prod.mk.inj happly
    obtain ⟨hreplaced, hnone, hvalue⟩ := reserveOverlay_ok hoverlay
    rw [reserveTotal, hreplaced.live_after, ← hbalance]
    cases hcreated : r.1.created with
    | none => exact (hzero.mp (hnone.mp hcreated)).symm
    | some x => simp [hvalue x hcreated]

theorem reserveRun_snoc [Crypto] {s s' : UtxoState} {run : List ReserveTransitionV1Parts}
    {parts : ReserveTransitionV1Parts} (h : reserveRun s (run ++ [parts]) = .ok s') :
    reserveTotal s' = parts.newExecutionBalanceTotal := by
  induction run generalizing s with
  | nil =>
    simp only [List.nil_append, reserveRun, bind_eq_ok, pure_eq_ok] at h
    obtain ⟨t, hnew, undo, hundo, rfl⟩ := h
    exact reserveTotal_applied hnew (Prod.ext hundo rfl)
  | cons first run ih =>
    simp only [List.cons_append, reserveRun, bind_eq_ok] at h
    grind

/-- Transitions are exact and reversible, and the reserve follows the claimed balances. -/
theorem reserve_transitions_exact [Crypto] (s : UtxoState) :
    (∀ parts t, ReserveTransitionV1.new parts = .ok t → ReserveExact s t) ∧
    ∀ run parts s', reserveRun s (run ++ [parts]) = .ok s' →
      reserveTotal s' = parts.newExecutionBalanceTotal :=
  ⟨fun _ _ hnew => reserveExact hnew s, fun _ _ _ => reserveRun_snoc⟩

/-- A deposit into an empty reserve. -/
def Sample.deposit : ReserveTransitionV1Parts where
  chainId := 7
  height := 100
  parentBlockHash := 0
  previous := none
  nativeDepositTotal := 120
  executionWithdrawalTotal := 15
  executionFeeTotal := 5
  newExecutionBalanceTotal := 100
  producerCoinbaseTxid := 0

/-- A withdrawal from the reserve that the deposit has left. -/
def Sample.withdrawal [Crypto] : ReserveTransitionV1Parts where
  chainId := 7
  height := 101
  parentBlockHash := 1
  previous := (ReserveTransitionV1.new deposit).toOption.bind fun t =>
    t.newReserveOutpoint.map fun outpoint => ⟨outpoint, 100⟩
  nativeDepositTotal := 0
  executionWithdrawalTotal := 40
  executionFeeTotal := 0
  newExecutionBalanceTotal := 60
  producerCoinbaseTxid := 1

open Sample in
theorem reserve_transitions_exact_sample :
    ∃ s', reserveRun .new ([deposit] ++ [withdrawal]) = .ok s' ∧ reserveTotal s' = 60 := by
  have hok : (reserveRun .new ([deposit] ++ [withdrawal])).toBool = true := by decide +kernel
  cases hrun : reserveRun .new ([deposit] ++ [withdrawal]) with
  | error e =>
    rw [hrun] at hok
    cases hok
  | ok s' => exact ⟨s', rfl, (reserve_transitions_exact .new).2 [deposit] withdrawal s' hrun⟩

end Oregon
