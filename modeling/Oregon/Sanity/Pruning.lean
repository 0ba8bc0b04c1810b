import Oregon.Sanity.Effects

/-! What pruning deletes. Every record whose body is retained is looked at by itself,
so the database after a prune is given key by key: a body goes when its record is too
low, invalid, or on a branch that leaves the active chain too deep, and an undo record
goes unless its block is active and in the window. -/

namespace Oregon

open Lib

section

variable [Crypto]

/-- Whether `id` is the active block at the height of its record. -/
def OregonDb.isActive (db : OregonDb) (id : Hash256) (r : BlockIndexRecord) : Bool :=
  decide (db.activeIdAtHeight r.height = some id)

/-- The decision about a body; a failed lookup stops the prune before it matters. -/
def keepsBody (db : OregonDb) (tipHeight : ℕ) (e : Hash256 × BlockIndexRecord) : Bool :=
  match retainBody db tipHeight (db.isActive e.1 e.2) e.1 e.2 with
  | .ok keep => keep
  | .error _ => true

def keepsUndo (db : OregonDb) (tipHeight : ℕ) (e : Hash256 × BlockIndexRecord) : Bool :=
  shouldRetainUndo (db.isActive e.1 e.2) e.2.height tipHeight

/-- The operations a prune adds for one record. -/
def pruneOps (db : OregonDb) (tipHeight : ℕ) (e : Hash256 × BlockIndexRecord) : StorageBatch :=
  (if keepsBody db tipHeight e then []
    else [.deleteBlock e.1, .putIndex { e.2 with bodyRetained := false }]) ++
  (if keepsUndo db tipHeight e ∨ db.getUndo e.1 = none then [] else [.deleteUndo e.1])

/-- What a prune has checked about one record. -/
structure PruneOk (db : OregonDb) (tipHeight : ℕ) (e : Hash256 × BlockIndexRecord) : Prop where
  status : db.isActive e.1 e.2 = true → e.2.validation = .fullyValidated
  body : ∃ block, db.getBlock e.1 = .ok (some block)
  decided : retainBody db tipHeight (db.isActive e.1 e.2) e.1 e.2 = .ok (keepsBody db tipHeight e)
  undo : keepsUndo db tipHeight e = true → ∃ undo, db.getUndo e.1 = some undo

omit [Crypto] in
theorem pruneBody_ok {id : Hash256} {r : BlockIndexRecord} {keep : Bool}
    {acc acc' : StorageBatch × PruneReport} (h : pruneBody id r keep acc = .ok acc') :
    acc'.1 = acc.1 ++
      if keep then [] else [.deleteBlock id, .putIndex { r with bodyRetained := false }] := by
  unfold pruneBody at h
  cases keep with
  | true =>
    rw [if_pos rfl, pure_eq_ok] at h
    simp [h]
  | false =>
    simp only [Bool.false_eq_true, if_false, bind_eq_ok, pure_eq_ok] at h
    obtain ⟨_, -, rfl⟩ := h
    rfl

omit [Crypto] in
theorem pruneUndo_ok {db : OregonDb} {id : Hash256} {keep : Bool}
    {acc acc' : StorageBatch × PruneReport} (h : pruneUndo db id keep acc = .ok acc') :
    acc'.1 = acc.1 ++ (if keep ∨ db.getUndo id = none then [] else [.deleteUndo id]) ∧
      (keep = true → ∃ undo, db.getUndo id = some undo) := by
  unfold pruneUndo at h
  cases hundo : db.getUndo id with
  | none =>
    cases keep with
    | true => simp [hundo] at h
    | false =>
      simp only [hundo, pure_eq_ok] at h
      simp [h]
  | some undo =>
    cases keep with
    | true =>
      simp only [hundo, pure_eq_ok] at h
      simp [h]
    | false =>
      simp only [hundo, bind_eq_ok, pure_eq_ok] at h
      obtain ⟨_, -, rfl⟩ := h
      simp

theorem pruneRecord_ok {db : OregonDb} {tipHeight : ℕ} {acc acc' : StorageBatch × PruneReport}
    {e : Hash256 × BlockIndexRecord} (h : pruneRecord db tipHeight acc e = .ok acc') :
    acc'.1 = acc.1 ++ pruneOps db tipHeight e ∧ PruneOk db tipHeight e := by
  simp only [pruneRecord, bind_eq_ok, ensure_eq_ok, exists_unit, mapError_eq_ok] at h
  obtain ⟨hstatus, body, hbody, hsome, keep, hkeep, mid, hmid, h⟩ := h
  have hdecided : keepsBody db tipHeight e = keep := by
    unfold keepsBody OregonDb.isActive
    rw [hkeep]
  obtain ⟨hbatch, hundo⟩ := pruneUndo_ok h
  refine ⟨?_, ⟨fun hactive => ?_, ?_, hdecided ▸ hkeep, hundo⟩⟩
  · rw [hbatch, pruneBody_ok hmid, List.append_assoc, pruneOps, hdecided]
    rfl
  · by_contra hne
    exact hstatus ⟨hactive, hne⟩
  · obtain ⟨block, rfl⟩ := Option.isSome_iff_exists.mp hsome
    exact ⟨block, hbody⟩

theorem planPrune_ok {db : OregonDb} {tipHeight : ℕ} {batch : StorageBatch} {report : PruneReport}
    (h : planPrune db tipHeight = .ok (batch, report)) :
    batch = db.iterBodyRetainedIndices.flatMap (pruneOps db tipHeight) ++
        [.setPruneCursor (pruneCursorForTip tipHeight)] ∧
      ∀ e ∈ db.iterBodyRetainedIndices, PruneOk db tipHeight e := by
  simp only [planPrune, bind_eq_ok, pure_eq_ok, Prod.exists, Prod.mk.injEq] at h
  obtain ⟨batch', _, hfold, rfl, -⟩ := h
  -- the fold, from any batch already collected
  have hall : ∀ (l : List (Hash256 × BlockIndexRecord)) (acc acc' : StorageBatch × PruneReport),
      l.foldlM (pruneRecord db tipHeight) acc = .ok acc' →
      acc'.1 = acc.1 ++ l.flatMap (pruneOps db tipHeight) ∧ ∀ e ∈ l, PruneOk db tipHeight e := by
    intro l
    induction l with
    | nil => simp [pure_eq_ok]
    | cons e l ih =>
      intro acc acc' hl
      simp only [List.foldlM_cons, bind_eq_ok] at hl
      obtain ⟨mid, hmid, hl⟩ := hl
      obtain ⟨hfirst, hok⟩ := pruneRecord_ok hmid
      grind
  grind

theorem foldl_pruneOps {db₀ db : OregonDb} {tipHeight : ℕ} {l : List (Hash256 × BlockIndexRecord)}
    (hid : ∀ e ∈ l, e.2.header.blockId = e.1) :
    (l.flatMap (pruneOps db₀ tipHeight)).foldl OregonDb.apply db =
      { db with
        blocks := applyChanges ((l.filter fun e => !keepsBody db₀ tipHeight e).map fun e =>
          (e.1, none)) db.blocks
        blockIndex := applyChanges ((l.filter fun e => !keepsBody db₀ tipHeight e).map fun e =>
          (e.1, some { e.2 with bodyRetained := false })) db.blockIndex
        undo := applyChanges ((l.filter fun e =>
          !(keepsUndo db₀ tipHeight e || decide (db₀.getUndo e.1 = none))).map fun e =>
          (e.1, none)) db.undo } := by
  induction l generalizing db with
  | nil => rfl
  | cons e l ih =>
    rw [List.flatMap_cons, List.foldl_append, ih fun a ha => hid a (List.mem_cons_of_mem _ ha)]
    have hkey := hid e (List.mem_cons_self ..)
    unfold pruneOps
    cases hbody : keepsBody db₀ tipHeight e <;> cases hundo : keepsUndo db₀ tipHeight e <;>
      by_cases hnone : db₀.getUndo e.1 = none <;>
      simp [hbody, hundo, hnone, OregonDb.apply, hkey]

/-- The database `db'` after a prune of `db`. -/
structure Pruned (db : OregonDb) (tipHeight : ℕ) (db' : OregonDb) : Prop where
  index : ∀ id : Hash256, db'.blockIndex[id]? = (db.blockIndex[id]?).map fun r =>
    { r with bodyRetained := r.bodyRetained && keepsBody db tipHeight (id, r) }
  blocks : ∀ id : Hash256, db'.blocks[id]? =
    if (db.blockIndex[id]?).any (fun r => r.bodyRetained && !keepsBody db tipHeight (id, r)) then none
    else db.blocks[id]?
  undo : ∀ id : Hash256, db'.undo[id]? =
    if (db.blockIndex[id]?).any (fun r => r.bodyRetained && !keepsUndo db tipHeight (id, r)) then none
    else db.undo[id]?
  frame : db' = { db with blocks := db'.blocks, blockIndex := db'.blockIndex, undo := db'.undo
                          pruneCursor := some (pruneCursorForTip tipHeight) }
  checked : ∀ (id : Hash256) (r : BlockIndexRecord), db.blockIndex[id]? = some r →
    r.bodyRetained = true → PruneOk db tipHeight (id, r)

section Lookups

variable {db db' : OregonDb} {tipHeight : ℕ} {id : Hash256} {r r' : BlockIndexRecord}

/-- A record after a prune is one from before, perhaps without its body. -/
theorem Pruned.getIndex_some (hp : Pruned db tipHeight db') (h : db'.getIndex id = some r') :
    ∃ r, db.getIndex id = some r ∧
      r' = { r with bodyRetained := r.bodyRetained && keepsBody db tipHeight (id, r) } := by
  rw [OregonDb.getIndex, hp.index, Option.map_eq_some_iff] at h
  obtain ⟨r, hr, rfl⟩ := h
  exact ⟨r, hr, rfl⟩

theorem Pruned.of_getIndex (hp : Pruned db tipHeight db') (h : db.getIndex id = some r) :
    db'.getIndex id = some { r with
      bodyRetained := r.bodyRetained && keepsBody db tipHeight (id, r) } := by
  change db.blockIndex[id]? = some r at h
  rw [OregonDb.getIndex, hp.index, h]
  rfl

theorem Pruned.same (hp : Pruned db tipHeight db') (h : db.getIndex id = some r)
    (hkeep : keepsBody db tipHeight (id, r) = true) : db'.getIndex id = some r := by
  rw [hp.of_getIndex h, hkeep, Bool.and_true]

end Lookups

theorem keepsBody_active {db : OregonDb} {tipHeight : ℕ} {id : Hash256} {r : BlockIndexRecord}
    (hactive : db.activeIdAtHeight r.height = some id) (hstatus : r.validation = .fullyValidated)
    (hfloor : retainedActiveFloor tipHeight ≤ r.height) (hle : r.height ≤ tipHeight) :
    keepsBody db tipHeight (id, r) = true := by
  have hwindow : tipHeight - r.height ≤ REORG_WINDOW := by grind [retainedActiveFloor]
  have hstay : ¬ (r.validation = .invalid ∨ r.height < retainedActiveFloor tipHeight) := by
    rw [hstatus]
    simpa using hfloor
  unfold keepsBody OregonDb.isActive retainBody
  rw [if_neg hstay]
  simp [hactive, shouldRetainBody, Nat.not_lt.mpr hfloor, hle, hwindow, pure, Except.pure, bind,
    Except.bind]

theorem floor_le_of_keepsBody {db : OregonDb} {tipHeight : ℕ} {id : Hash256} {r : BlockIndexRecord}
    (h : keepsBody db tipHeight (id, r) = true) : retainedActiveFloor tipHeight ≤ r.height := by
  by_contra hlow
  have hdrop : retainBody db tipHeight (db.isActive id r) id r = .ok false :=
    if_pos (Or.inr (Nat.lt_of_not_le hlow))
  simp [keepsBody, hdrop] at h

omit [Crypto] in
theorem mem_iterBodyRetainedIndices {db : OregonDb} {id : Hash256} {r : BlockIndexRecord} :
    (id, r) ∈ db.iterBodyRetainedIndices ↔
      db.blockIndex[id]? = some r ∧ r.bodyRetained = true := by
  simp [OregonDb.iterBodyRetainedIndices]

theorem planPrune_pruned {config : ChainConfig} {db : OregonDb} {tipHeight : ℕ}
    {batch : StorageBatch} {report : PruneReport} (hok : IndexOk config db.blockIndex)
    (h : planPrune db tipHeight = .ok (batch, report)) :
    Pruned db tipHeight (batch.foldl OregonDb.apply db) := by
  obtain ⟨rfl, hchecked⟩ := planPrune_ok h
  have hid : ∀ e ∈ db.iterBodyRetainedIndices, e.2.header.blockId = e.1 := fun e he =>
    (hok.ident _ _ (mem_iterBodyRetainedIndices.mp he).1).1
  rw [List.foldl_append, foldl_pruneOps hid]
  simp only [OregonDb.iterBodyRetainedIndices, List.filter_filter, List.foldl_cons, List.foldl_nil,
    OregonDb.apply]
  refine ⟨fun id => ?_, fun id => ?_, fun id => ?_, rfl,
    fun id r hr hbody => hchecked _ (mem_iterBodyRetainedIndices.mpr ⟨hr, hbody⟩)⟩
  · rw [lookup_applyChanges_filter]
    cases hr : db.blockIndex[id]? with
    | none => rfl
    | some r =>
      cases hkeep : keepsBody db tipHeight (id, r) with
      | false =>
        cases hbody : r.bodyRetained with
        | false =>
          simp only [hbody, Bool.false_and, Bool.and_false, Bool.false_eq_true, if_false,
            Option.map_some, Option.some.injEq]
          rw [← hbody]
        | true => simp [hkeep, hbody]
      | true => simp [hkeep]
  · rw [lookup_applyChanges_filter]
    cases hr : db.blockIndex[id]? with
    | none => rfl
    | some r => simp [and_comm]
  · rw [lookup_applyChanges_filter]
    cases hr : db.blockIndex[id]? with
    | none => rfl
    | some r =>
      by_cases hnone : db.undo[id]? = none
      · simp [hnone, OregonDb.getUndo]
      · simp [hnone, OregonDb.getUndo, and_comm]

end

end Oregon
