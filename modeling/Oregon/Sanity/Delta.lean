import Oregon.Sanity.Utxo
import Oregon.Spec.Calls

/-! The pending changes of the UTXO records. Laid over the stored set, they give the
set in memory: after every disconnected block and after every connected one. -/

namespace Oregon

open Lib

/-- The changes that undo a block. -/
def BlockUndo.disconnectChanges (undo : BlockUndo) : List (OutPoint × Option UtxoEntry) :=
  undo.created.map (fun o => (o, none)) ++ undo.spent.map fun e => (e.1, some e.2)

/-- The changes of a block that has led to the set `staged`. -/
def BlockUndo.connectChanges (undo : BlockUndo) (staged : UtxoState) :
    List (OutPoint × Option UtxoEntry) :=
  undo.spent.map (fun e => (e.1, none)) ++ undo.created.map fun o => (o, staged.get o)

theorem recordDisconnectDelta_eq (delta : UtxoDelta) (undo : BlockUndo) :
    recordDisconnectDelta delta undo =
      undo.disconnectChanges.foldl (fun d e => d.insert e.1 e.2) delta := by
  simp only [recordDisconnectDelta, BlockUndo.disconnectChanges, List.foldl_append, List.foldl_map]

theorem recordConnect_ok {missing : String} {delta delta' : UtxoDelta} {staged : UtxoState}
    {undo : BlockUndo} :
    recordConnect missing delta staged undo = .ok delta' ↔
      (∀ o ∈ undo.created, ∃ e, staged.get o = some e) ∧
      delta' = (undo.connectChanges staged).foldl (fun d e => d.insert e.1 e.2) delta := by
  simp only [recordConnect, BlockUndo.connectChanges, List.foldl_append, List.foldl_map]
  generalize undo.spent.foldl (fun d e => d.insert e.1 none) delta = d
  induction undo.created generalizing d with
  | nil =>
    rw [List.foldlM_nil, pure_eq_ok]
    simp [eq_comm]
  | cons o created ih =>
    simp only [List.foldlM_cons, bind_eq_ok, orElse_eq_ok, pure_eq_ok, List.forall_mem_cons,
      List.foldl_cons]
    grind

theorem recordConnect_undoBetween (missing : String) (delta : UtxoDelta) (t t' : UtxoState) :
    ∃ delta', recordConnect missing delta t' (UtxoState.undoBetween t t') = .ok delta' := by
  refine ⟨_, recordConnect_ok.mpr ⟨fun o ho => ?_, rfl⟩⟩
  have hmem : o ∈ t'.entries := by
    rw [UtxoState.undoBetween, Std.ExtTreeMap.mem_keys, Std.ExtTreeMap.mem_filter] at ho
    exact ho.choose
  exact (mem_iff_lookup t'.entries o).mp hmem

theorem disconnectBlock_ok {s t : UtxoState} {undo : BlockUndo} (h : s.disconnectBlock undo = .ok t) :
    t.entries = applyChanges undo.disconnectChanges s.entries := by
  simp only [UtxoState.disconnectBlock, bind_eq_ok, ensure_eq_ok, exists_unit, pure_eq_ok] at h
  obtain ⟨-, -, mid, hmid, final, hfinal, rfl⟩ := h
  have herase : ∀ (l : List OutPoint) (m m' : UtxoMap), l.foldlM (fun (m : UtxoMap) o => do
      ensure (o ∈ m) UtxoError.undoMismatch; pure (m.erase o)) m = .ok m' →
      m' = applyChanges (l.map fun o => (o, none)) m := by
    intro l
    induction l with
    | nil => intro m m' h; exact (pure_eq_ok.mp h).symm
    | cons o l ih =>
      intro m m' h
      simp only [List.foldlM_cons, bind_eq_ok, ensure_eq_ok, exists_unit, pure_eq_ok] at h
      obtain ⟨_, ⟨-, rfl⟩, h⟩ := h
      exact ih _ _ h
  have hinsert : ∀ (l : List (OutPoint × UtxoEntry)) (m m' : UtxoMap),
      l.foldlM (fun (m : UtxoMap) e => do
        ensure (e.1 ∉ m) UtxoError.undoMismatch; pure (m.insert e.1 e.2)) m = .ok m' →
      m' = applyChanges (l.map fun e => (e.1, some e.2)) m := by
    intro l
    induction l with
    | nil => intro m m' h; exact (pure_eq_ok.mp h).symm
    | cons o l ih =>
      intro m m' h
      simp only [List.foldlM_cons, bind_eq_ok, ensure_eq_ok, exists_unit, pure_eq_ok] at h
      obtain ⟨_, ⟨-, rfl⟩, h⟩ := h
      exact ih _ _ h
  rw [BlockUndo.disconnectChanges, applyChanges_append, ← herase _ _ _ hmid, ← hinsert _ _ _ hfinal]

theorem overlay_disconnect {s t : UtxoState} {undo : BlockUndo} {delta : UtxoDelta} {stored : UtxoMap}
    (h : s.disconnectBlock undo = .ok t) (hsync : overlay delta stored = s.entries) :
    overlay (recordDisconnectDelta delta undo) stored = t.entries := by
  rw [recordDisconnectDelta_eq, overlay_collect, hsync, disconnectBlock_ok h]

/-- One connected block keeps the pending changes in step, when it has left the entries
that stay as they were. -/
theorem overlay_connect {missing : String} {s t : UtxoState} {delta delta' : UtxoDelta}
    {stored : UtxoMap}
    (hrecord : recordConnect missing delta t (UtxoState.undoBetween s t) = .ok delta')
    (hagree : ∀ o ∈ s.entries, o ∈ t.entries → t.entries[o]? = s.entries[o]?)
    (hsync : overlay delta stored = s.entries) : overlay delta' stored = t.entries := by
  obtain ⟨-, rfl⟩ := recordConnect_ok.mp hrecord
  rw [overlay_collect, hsync]
  exact redo_reaches hagree

end Oregon
