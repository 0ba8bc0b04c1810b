import Oregon.Sanity.Bounds
import Oregon.Sanity.Sample
import Oregon.Proofs.Canonical

/-! Storage neither refuses nor distorts what consensus accepted. That all records are within
the bounds of the storage format is an invariant of every run whose blocks come from the
decoder, and a batch built for a block writes each place once; so it is encoded, and what it
writes is read back. -/

namespace Oregon

open Lib

section Batches

/-- The records of a database are within the bounds, and blocks are under their ids. -/
structure OregonDb.Fits [Crypto] (db : OregonDb) : Prop where
  blocks : ∀ (id : Hash256) (block : Block), db.blocks[id]? = some block →
    block.header.blockId = id ∧ block.Within .default
  index : ∀ (id : Hash256) (r : BlockIndexRecord), db.blockIndex[id]? = some r →
    r.header.blockId = id ∧ r.Fits
  utxo : UtxoMap.Fits db.utxo
  undo : ∀ (id : Hash256) (undo : BlockUndo), db.undo[id]? = some undo → undo.Fits

section Lookup

variable {K V : Type} [Ord K] [Std.TransOrd K] {m : Std.ExtTreeMap K V} {P : K → V → Prop}

theorem forall_lookup_insert [Std.LawfulEqOrd K] (h : ∀ (k : K) v, m[k]? = some v → P k v) {a : K} {w : V}
    (hw : P a w) : ∀ (k : K) v, (m.insert a w)[k]? = some v → P k v := by
  grind

theorem forall_lookup_erase (h : ∀ (k : K) v, m[k]? = some v → P k v) {a : K} :
    ∀ (k : K) v, (m.erase a)[k]? = some v → P k v := by
  grind

end Lookup

variable [Crypto]

theorem OregonDb.Fits.apply {db : OregonDb} (h : db.Fits) {op : StorageOp} (hop : op.Fits) :
    (db.apply op).Fits := by
  cases op with
  | putBlock block => exact ⟨forall_lookup_insert h.blocks ⟨rfl, hop⟩, h.index, h.utxo, h.undo⟩
  | deleteBlock id => exact ⟨forall_lookup_erase h.blocks, h.index, h.utxo, h.undo⟩
  | putIndex record => exact ⟨h.blocks, forall_lookup_insert h.index ⟨rfl, hop⟩, h.utxo, h.undo⟩
  | putUtxo o entry => exact ⟨h.blocks, h.index, forall_lookup_insert h.utxo hop, h.undo⟩
  | deleteUtxo o => exact ⟨h.blocks, h.index, forall_lookup_erase h.utxo, h.undo⟩
  | putUndo id undo => exact ⟨h.blocks, h.index, h.utxo, forall_lookup_insert h.undo hop⟩
  | deleteUndo id => exact ⟨h.blocks, h.index, h.utxo, forall_lookup_erase h.undo⟩
  | _ => exact ⟨h.blocks, h.index, h.utxo, h.undo⟩

theorem OregonDb.Fits.batch {db : OregonDb} (h : db.Fits) {batch : StorageBatch}
    (hbatch : ∀ op ∈ batch, op.Fits) : (batch.foldl OregonDb.apply db).Fits := by
  induction batch generalizing db with
  | nil => exact h
  | cons op batch ih =>
    exact ih (h.apply (hbatch op (List.mem_cons_self ..))) fun o ho =>
      hbatch o (List.mem_cons_of_mem _ ho)

/-- A place in one of the four tables that hold records. -/
inductive Slot where
  | block (id : Hash256)
  | index (id : Hash256)
  | undo (id : Hash256)
  | utxo (outpoint : OutPoint)
  deriving DecidableEq

/-- The place that an operation writes, if it is one of a record. -/
def StorageOp.slot : StorageOp → Option Slot
  | .putBlock block => some (.block block.header.blockId)
  | .deleteBlock id => some (.block id)
  | .putIndex record => some (.index record.header.blockId)
  | .putUtxo outpoint _ => some (.utxo outpoint)
  | .deleteUtxo outpoint => some (.utxo outpoint)
  | .putUndo id _ => some (.undo id)
  | .deleteUndo id => some (.undo id)
  | _ => none

/-- The database holds the record that the operation has put. -/
def StorageOp.Held (db : OregonDb) : StorageOp → Prop
  | .putBlock block => db.blocks[block.header.blockId]? = some block
  | .putIndex record => db.blockIndex[record.header.blockId]? = some record
  | .putUtxo outpoint entry => db.utxo[outpoint]? = some entry
  | .putUndo id undo => db.undo[id]? = some undo
  | _ => True

theorem StorageOp.held_apply (db : OregonDb) (op : StorageOp) : op.Held (db.apply op) := by
  cases op <;> simp [StorageOp.Held, OregonDb.apply]

/-- An operation on another place leaves a record where it is. -/
theorem StorageOp.Held.apply {db : OregonDb} {op next : StorageOp} (h : op.Held db)
    (hslot : ∀ slot, op.slot = some slot → next.slot ≠ some slot) : op.Held (db.apply next) := by
  cases op with
  | putBlock block =>
    cases next <;> simp_all [StorageOp.Held, OregonDb.apply, StorageOp.slot, lookup_insert,
      lookup_erase]
  | putIndex record =>
    cases next <;> simp_all [StorageOp.Held, OregonDb.apply, StorageOp.slot, lookup_insert]
  | putUtxo outpoint entry =>
    cases next <;> simp_all [StorageOp.Held, OregonDb.apply, StorageOp.slot, lookup_insert,
      lookup_erase]
  | putUndo id undo =>
    cases next <;> simp_all [StorageOp.Held, OregonDb.apply, StorageOp.slot, lookup_insert,
      lookup_erase]
  | _ => trivial

theorem StorageOp.Held.batch {db : OregonDb} {op : StorageOp} {batch : StorageBatch}
    (h : op.Held db) (hslot : ∀ slot, op.slot = some slot → slot ∉ batch.filterMap StorageOp.slot) :
    op.Held (batch.foldl OregonDb.apply db) := by
  induction batch generalizing db with
  | nil => exact h
  | cons next batch ih =>
    refine ih (h.apply fun slot hop hnext => hslot slot hop ?_) fun slot hop hmem => hslot slot hop ?_
    · exact List.mem_filterMap.mpr ⟨next, List.mem_cons_self .., hnext⟩
    · simp_all

/-- A batch that writes each place once leaves every record it puts. -/
theorem held_of_distinct {batch : StorageBatch} (hdistinct : (batch.filterMap StorageOp.slot).Nodup)
    (db : OregonDb) : ∀ op ∈ batch, op.Held (batch.foldl OregonDb.apply db) := by
  induction batch generalizing db with
  | nil => exact fun op hop => absurd hop List.not_mem_nil
  | cons next batch ih =>
    have htail : (batch.filterMap StorageOp.slot).Nodup :=
      hdistinct.sublist ((List.sublist_cons_self next batch).filterMap _)
    refine List.forall_mem_cons.mpr ⟨(next.held_apply db).batch fun slot hslot hmem => ?_, ih htail _⟩
    simp_all

theorem slots_applyUtxoDelta (delta : UtxoDelta) :
    (applyUtxoDelta delta).filterMap StorageOp.slot =
      delta.toList.map fun change => Slot.utxo change.1 := by
  rw [applyUtxoDelta, List.filterMap_map, ← List.filterMap_eq_map]
  refine List.filterMap_congr fun change _ => ?_
  obtain ⟨o, entry⟩ := change
  cases entry <;> rfl

theorem nodup_applyUtxoDelta (delta : UtxoDelta) :
    ((applyUtxoDelta delta).filterMap StorageOp.slot).Nodup := by
  rw [slots_applyUtxoDelta]
  refine List.pairwise_map.mpr (Std.ExtTreeMap.distinct_keys_toList.imp fun hne heq => hne ?_)
  simp_all

/-- The places of the records of a block. -/
def recordSlots (id : Hash256) : List Slot := [.block id, .index id, .undo id]

omit [Crypto] in
theorem nodup_recordSlots {ids : List Hash256} (h : ids.Nodup) : (ids.flatMap recordSlots).Nodup := by
  refine List.nodup_flatMap.mpr ⟨fun id _ => by simp [recordSlots], h.imp fun {a b} hne => ?_⟩
  intro slot ha hb
  simp only [recordSlots, List.mem_cons, List.not_mem_nil, or_false] at ha hb
  rcases ha with rfl | rfl | rfl <;> rcases hb with heq | heq | heq <;> cases heq <;> exact hne rfl

/-- The records of distinct blocks and the changes to the UTXO set have distinct places. -/
theorem nodup_records_delta {ids : List Hash256} (h : ids.Nodup) (delta : UtxoDelta) :
    (ids.flatMap recordSlots ++ (applyUtxoDelta delta).filterMap StorageOp.slot).Nodup := by
  refine (nodup_recordSlots h).append (nodup_applyUtxoDelta delta) fun slot hrecord hdelta => ?_
  rw [slots_applyUtxoDelta] at hdelta
  obtain ⟨_, -, rfl⟩ := List.mem_map.mp hdelta
  simp [recordSlots] at hrecord

theorem slots_preferOp (becomesPreferred : Bool) (tip : Tip) :
    (preferOp becomesPreferred tip).filterMap StorageOp.slot = [] := by
  cases becomesPreferred <;> rfl

end Batches

section Steps

variable [Crypto] {verifier : SpendVerifier} {s : ChainState}

/-- The records of a chain state, in memory and in the database, are within the bounds. -/
structure ChainState.Fits (s : ChainState) : Prop where
  db : s.db.Fits
  utxos : UtxoMap.Fits s.utxos.entries

/-- What is written and published is within the bounds. -/
structure Commit.Fits {α : Type} (c : Commit α) : Prop where
  batch : ∀ op ∈ c.batch, op.Fits
  utxos : UtxoMap.Fits c.next.utxos.entries

/-- And each place is written once. -/
structure Commit.Stores {α : Type} (c : Commit α) : Prop extends Commit.Fits c where
  distinct : (c.batch.filterMap StorageOp.slot).Nodup

theorem extendActive_stores {block : Block} {index : BlockIndexRecord} {c : Commit AcceptOutcome}
    (hs : Consistent s) (h : s.Fits) (hblock : block.Within .default) (hc : Candidate s block index)
    (haction : extendActive s block index.height index.cumulativeWork verifier = .ok (.commit c)) :
    c.Stores := by
  simp only [extendActive, bind_eq_ok, mapError_eq_ok, pure_eq_ok, Prod.exists,
    Action.commit.injEq] at haction
  obtain ⟨staged, undo, hconnect, delta, hdelta, rfl⟩ := haction
  have hindex : index.Fits := hc.source_eq.fits hs.index
  have hstaged : UtxoMap.Fits staged.entries :=
    connectBlock_fits hconnect hblock hindex.height h.utxos
  have hempty : UtxoDelta.Fits ∅ := fun o e he => by simp at he
  have hdelta := recordConnect_fits hdelta hempty hstaged
  refine ⟨⟨fun op hop => ?_, hstaged⟩, ?_⟩
  · simp only [List.mem_append, List.mem_cons, List.not_mem_nil, or_false] at hop
    rcases hop with ((((rfl | rfl | rfl) | hop) | (rfl | rfl)) | hop)
    · exact hblock
    · exact ⟨rfl, hindex.work, hindex.height⟩
    · exact connectBlock_undo_fits hconnect h.utxos
    · exact applyUtxoDelta_fits hdelta op hop
    · trivial
    · trivial
    · exact preferOp_fits _ _ op hop
  · have hslots := nodup_records_delta (List.nodup_singleton block.header.blockId) delta
    rw [List.filterMap_append, List.filterMap_append, List.filterMap_append, slots_preferOp,
      List.append_nil]
    change (recordSlots block.header.blockId ++ _ ++ []).Nodup
    rw [List.append_nil]
    exact hslots

theorem PathOk.fits {block : Block} {index : BlockIndexRecord} {forkHeight : ℕ}
    {path : List ReorgCandidate} (hs : Consistent s) (h : s.Fits) (hblock : block.Within .default)
    (hc : Candidate s block index) (hp : PathOk s block index forkHeight path) :
    ∀ c ∈ path, c.block.Within .default ∧ c.index.Fits := by
  intro c hmem
  obtain ⟨r, hsource, hshape⟩ := hp.source_eq hc c hmem
  refine ⟨?_, hshape.fits (hsource.fits hs.index)⟩
  obtain ⟨below, rfl, hbelow⟩ := hp.last
  rcases List.mem_append.mp hmem with hlow | htop
  · exact (h.db.blocks _ _ (hbelow c hlow).2.2).2
  · simp_all

theorem loadOldActive_fits {db : OregonDb} (h : db.Fits) {forkHeight count : ℕ}
    {old : List (Hash256 × BlockUndo)} (hload : loadOldActive db forkHeight count = .ok old) :
    ∀ p ∈ old, p.2.Fits := by
  induction count generalizing old with
  | zero =>
    rw [loadOldActive, pure_eq_ok] at hload
    simp [← hload]
  | succ count ih =>
    simp only [loadOldActive, bind_eq_ok, orElse_eq_ok, pure_eq_ok] at hload
    obtain ⟨id, -, undo, hundo, rest, hrest, rfl⟩ := hload
    exact List.forall_mem_cons.mpr ⟨h.undo id undo hundo, ih hrest⟩

theorem slots_deleteActiveHeight {α : Type} (height : α → ℕ) (l : List α) :
    (l.map fun x => StorageOp.deleteActiveHeight (height x)).filterMap StorageOp.slot = [] := by
  rw [List.filterMap_map]
  exact List.filterMap_eq_nil_iff.mpr fun _ _ => rfl

theorem slots_connectedOps {node : ReorgCandidate} (undo : BlockUndo)
    (hheader : node.block.header = node.index.header ∧ node.index.header.blockId = node.id) :
    (connectedOps node undo).filterMap StorageOp.slot = recordSlots node.id := by
  simp [connectedOps, StorageOp.slot, recordSlots, hheader.1, hheader.2]

theorem slots_connected {path : List ReorgCandidate} {undos : List BlockUndo}
    (hheaders : ∀ c ∈ path, c.block.header = c.index.header ∧ c.index.header.blockId = c.id)
    (hlength : undos.length = path.length) :
    ((path.zip undos).flatMap fun p => connectedOps p.1 p.2).filterMap StorageOp.slot =
      (path.map ReorgCandidate.id).flatMap recordSlots := by
  induction path generalizing undos with
  | nil => rfl
  | cons node path ih =>
    cases undos with
    | nil => simp at hlength
    | cons undo undos =>
      simp only [List.zip_cons_cons, List.flatMap_cons, List.filterMap_append, List.map_cons,
        slots_connectedOps undo (hheaders node (List.mem_cons_self ..)),
        ih (fun c hc => hheaders c (List.mem_cons_of_mem _ hc)) (Nat.succ.inj hlength)]

omit [Crypto] in
theorem connectedOps_fits {node : ReorgCandidate} {undo : BlockUndo}
    (hblock : node.block.Within .default) (hindex : node.index.Fits) (hundo : undo.Fits) :
    ∀ op ∈ connectedOps node undo, op.Fits := by
  intro op hop
  simp only [connectedOps, List.mem_cons, List.not_mem_nil, or_false] at hop
  rcases hop with rfl | rfl | rfl | rfl
  · exact hblock
  · exact ⟨hindex.parent, hindex.work, hindex.height⟩
  · exact hundo
  · trivial

theorem applyReorgPlan_stores {block : Block} {index : BlockIndexRecord} {forkHeight : ℕ}
    {path : List ReorgCandidate} {old : List (Hash256 × BlockUndo)} {c : Commit AcceptOutcome}
    (hs : Consistent s) (h : s.Fits) (hblock : block.Within .default) (hc : Candidate s block index)
    (hpath : PathOk s block index forkHeight path)
    (hplan : reorgPlan s block index = .ok ⟨forkHeight, old, path⟩)
    (haction : applyReorgPlan s ⟨forkHeight, old, path⟩ block.header.blockId verifier =
      .ok (.commit c)) : c.Stores := by
  simp only [applyReorgPlan, bind_eq_ok, ensure_eq_ok, exists_unit, Prod.exists] at haction
  obtain ⟨-, base, delta, hdisconnect, haction⟩ := haction
  have hnodes := hpath.fits hs h hblock hc
  have hempty : UtxoDelta.Fits ∅ := fun o e he => by simp at he
  obtain ⟨hbase, hdelta⟩ := disconnectActive_fits hdisconnect
    (loadOldActive_fits h.db (reorgPlan_old hplan)) h.utxos hempty
  split at haction
  · simp at haction
  · next suffix e hconnect =>
    obtain ⟨connected, rfl, -⟩ := connectCandidates_suffix hconnect
    simp only [pure_eq_ok, Action.commit.injEq] at haction
    subst haction
    refine ⟨⟨fun op hop => ?_, h.utxos⟩, ?_⟩
    · obtain ⟨node, hnode, rfl⟩ := List.mem_map.mp hop
      obtain ⟨-, hindex⟩ := hnodes node (List.mem_append_right _ hnode)
      exact ⟨hindex.parent, hindex.work, hindex.height⟩
    · have hids := hpath.nodup_ids hc
      rw [List.map_append] at hids
      have hslots : (suffix.map (markInvalid block.header.blockId)).filterMap StorageOp.slot =
          (suffix.map ReorgCandidate.id).map Slot.index := by
        rw [List.filterMap_map, List.map_map, ← List.filterMap_eq_map]
        refine List.filterMap_congr fun node hnode => ?_
        exact congrArg (some ∘ Slot.index) (hpath.headers node (List.mem_append_right _ hnode)).2
      grind
  · next staged delta' undos hconnect =>
    simp only [bind_eq_ok, pure_eq_ok, Action.commit.injEq] at haction
    obtain ⟨top, -, first, -, rfl⟩ := haction
    obtain ⟨hstaged, hdelta', hundos⟩ := connectCandidates_fits hconnect
      (fun c hmem => ⟨(hnodes c hmem).1, (hnodes c hmem).2.height⟩) hbase hdelta
    refine ⟨⟨fun op hop => ?_, hstaged⟩, ?_⟩
    · simp only [List.mem_append, List.mem_singleton] at hop
      rcases hop with ((((hop | hop) | hop) | rfl) | hop)
      · obtain ⟨_, -, rfl⟩ := List.mem_map.mp hop
        trivial
      · obtain ⟨⟨node, undo⟩, hmem, hop⟩ := List.mem_flatMap.mp hop
        obtain ⟨hnode, hundo⟩ := List.of_mem_zip hmem
        exact connectedOps_fits (hnodes node hnode).1 (hnodes node hnode).2 (hundos undo hundo) op hop
      · exact applyUtxoDelta_fits hdelta' op hop
      · trivial
      · exact preferOp_fits _ _ op hop
    · have hslots := slots_connected hpath.headers (connectCandidates_length hconnect)
      have hdistinct := nodup_records_delta (hpath.nodup_ids hc) delta'
      rw [List.filterMap_append, List.filterMap_append, List.filterMap_append,
        List.filterMap_append, slots_preferOp, hslots, List.append_nil, slots_deleteActiveHeight]
      change ([] ++ _ ++ _ ++ []).Nodup
      rw [List.append_nil, List.nil_append]
      exact hdistinct

theorem admitBody_stores {block : Block} {index : BlockIndexRecord} {c : Commit AcceptOutcome}
    (hs : Consistent s) (h : s.Fits) (hblock : block.Within .default) (hc : Candidate s block index)
    (haction : admitBody s block index verifier = .ok (.commit c)) : c.Stores := by
  unfold admitBody at haction
  by_cases hparent : index.parent = s.tip.blockId
  · rw [if_pos hparent] at haction
    exact extendActive_stores hs h hblock hc haction
  rw [if_neg hparent] at haction
  by_cases hheavy : s.tip.cumulativeWork < index.cumulativeWork
  · rw [if_pos hheavy] at haction
    rcases reorganize_ok hc haction with heq | ⟨forkHeight, path, old, hpath, hplan, happly⟩
    · simp only [Action.commit.injEq] at heq
      subst heq
      exact ⟨⟨fun op hop => by rw [List.mem_singleton.mp hop]; trivial, h.utxos⟩, List.nodup_nil⟩
    · exact applyReorgPlan_stores hs h hblock hc hpath hplan happly
  · rw [if_neg hheavy, pure_eq_ok, Action.commit.injEq] at haction
    subst haction
    have hindex : index.Fits := hc.source_eq.fits hs.index
    refine ⟨⟨List.forall_mem_cons.mpr ⟨hblock, fun op hop => ?_⟩, h.utxos⟩, ?_⟩
    · rw [List.mem_singleton.mp hop]
      exact ⟨hindex.parent, hindex.work, hindex.height⟩
    · simp [StorageOp.slot]

/-- Whatever an accepted block commits is within the bounds and has its own place. -/
theorem acceptBlockHealthy_stores {block : Block} {engine : Option PowError}
    {c : Commit AcceptOutcome} (hs : Consistent s) (h : s.Fits) (hblock : block.Within .default)
    (haction : acceptBlockHealthy s block verifier engine = .ok (.commit c)) : c.Stores := by
  simp only [acceptBlockHealthy] at haction
  split at haction
  · next existing hknown =>
    split at haction
    · cases haction
    · simp [pure_eq_ok] at haction
    · next hstatus =>
      split_ifs at haction with hbody
      · simp [pure_eq_ok] at haction
      simp only [bind_eq_ok, ensure_eq_ok, exists_unit] at haction
      obtain ⟨hheader, haction⟩ := haction
      obtain ⟨-, hparent⟩ := hs.index.ident _ _ hknown
      exact admitBody_stores hs h hblock ⟨hheader, hheader ▸ hparent, hstatus, by simpa using hbody,
        Or.inl hknown⟩ haction
  · next hunknown =>
    simp only [bind_eq_ok] at haction
    obtain ⟨index, hindex, haction⟩ := haction
    obtain ⟨hheader, hfresh⟩ := validateCandidateHeader_ok hunknown hindex
    exact admitBody_stores hs h hblock ⟨hheader, hheader ▸ hfresh.parent_eq, hfresh.status,
      hfresh.body, Or.inr hfresh⟩ haction

theorem acceptHeaderHealthy_fits {header : BlockHeader} {engine : Option PowError}
    {c : Commit HeaderImportOutcome} (hs : Consistent s) (h : s.Fits)
    (haction : acceptHeaderHealthy s header engine = .ok (.commit c)) : c.Fits := by
  simp only [acceptHeaderHealthy] at haction
  split at haction
  · simp only [bind_eq_ok, pure_eq_ok, reduceCtorEq, and_false, exists_false] at haction
  · next hunknown =>
    simp only [bind_eq_ok, pure_eq_ok, Action.commit.injEq] at haction
    obtain ⟨index, hindex, rfl⟩ := haction
    obtain ⟨rfl, hfresh⟩ := validateCandidateHeader_ok hunknown hindex
    refine ⟨List.forall_mem_cons.mpr ⟨hfresh.fits hs.index, preferOp_fits _ _⟩, h.utxos⟩

theorem planPrune_fits {batch : StorageBatch} {report : PruneReport} (hs : Consistent s)
    (hplan : planPrune s.db s.tip.height = .ok (batch, report)) : ∀ op ∈ batch, op.Fits := by
  obtain ⟨rfl, -⟩ := planPrune_ok hplan
  intro op hop
  rcases List.mem_append.mp hop with hop | hop
  · obtain ⟨e, he, hop⟩ := List.mem_flatMap.mp hop
    have hindex := hs.index.fits (mem_iterBodyRetainedIndices.mp he).1
    rcases List.mem_append.mp hop with hop | hop
    · split_ifs at hop
      · exact absurd hop List.not_mem_nil
      · simp only [List.mem_cons, List.not_mem_nil, or_false] at hop
        rcases hop with rfl | rfl
        · trivial
        · exact ⟨hindex.parent, hindex.work, hindex.height⟩
    · split_ifs at hop
      · exact absurd hop List.not_mem_nil
      · rw [List.mem_singleton.mp hop]
        trivial
  · rw [List.mem_singleton.mp hop]
    trivial

theorem noteFault_fits {α : Type} {r : ChainState × Result α} (h : r.1.Fits) :
    (noteFault r).1.Fits := by
  unfold noteFault
  split
  · exact ⟨h.db, h.utxos⟩
  · exact h

theorem ChainState.Fits.perform {α : Type} {action : Result (Action α)} (h : s.Fits)
    (haction : ∀ c, action = .ok (.commit c) → c.Fits) (fault : Option String) :
    (s.perform fault action).1.Fits := by
  rcases perform_cases s fault action with
    ⟨e, -, hp⟩ | ⟨reply, -, hp⟩ | ⟨c, hc, ⟨e, hp⟩ | ⟨-, -, hp⟩⟩
  · rw [hp]
    exact h
  · rw [hp]
    exact h
  · rw [hp]
    exact h
  · obtain ⟨hbatch, hutxos⟩ := haction c hc
    rw [hp]
    exact ⟨h.db.batch hbatch, hutxos⟩

/-- A request whose block, if it brings one, comes from the decoder with default limits. -/
def Request.Decoded : Request → Prop
  | .acceptBlock block => ∃ bytes, Block.decode bytes .default = .ok block
  | _ => True

omit [Crypto] in
theorem within_of_decode {bytes : Bytes} {block : Block}
    (h : Block.decode bytes .default = .ok block) : block.Within .default := by
  obtain rfl := Block.encode_of_decode h
  exact (Block.decode_encode_eq h).2

theorem ChainState.Fits.step {call : Call} (hs : Consistent s) (h : s.Fits)
    (hcall : call.request.Decoded) : (step verifier s call).1.Fits := by
  obtain ⟨request, faults⟩ := call
  unfold Oregon.step
  cases request with
  | acceptHeader header =>
    simp only [ChainState.acceptHeader]
    split
    · exact h
    · exact noteFault_fits (h.perform (fun c => acceptHeaderHealthy_fits hs h) _)
  | acceptBlock block =>
    simp only [ChainState.acceptBlock]
    split
    · exact h
    · obtain ⟨bytes, hdecode⟩ := hcall
      have hblock := within_of_decode hdecode
      refine noteFault_fits (h.perform (fun c hc => ?_) _)
      exact (acceptBlockHealthy_stores hs h hblock hc).toFits
  | prune =>
    simp only [ChainState.prune]
    split
    · exact h
    · refine h.perform (fun c hc => ?_) _
      simp only [bind_eq_ok, Prod.exists, pure_eq_ok, Action.commit.injEq] at hc
      obtain ⟨batch, report, hplan, rfl⟩ := hc
      exact ⟨planPrune_fits hs hplan, h.utxos⟩

theorem ChainState.Fits.initial (config : ChainConfig) : (ChainState.initial config).Fits := by
  have hempty : OregonDb.empty.Fits :=
    ⟨fun _ _ h => by simp [OregonDb.empty] at h, fun _ _ h => by simp [OregonDb.empty] at h,
      fun _ _ h => by simp [OregonDb.empty] at h, fun _ _ h => by simp [OregonDb.empty] at h⟩
  refine ⟨hempty.batch fun op hop => ?_, fun o e h => by simp [ChainState.initial, UtxoState.new] at h⟩
  simp only [bootstrapBatch, List.mem_cons, List.not_mem_nil, or_false] at hop
  rcases hop with rfl | rfl | rfl | rfl | rfl | rfl | rfl | rfl
  · exact fits_of_bounds rfl (Nat.zero_le _) (Nat.two_pow_pos 64)
  all_goals trivial

theorem run_fits {config : ChainConfig} {calls : List Call} (hboot : Bootstrapped config s)
    (hcalls : ∀ call ∈ calls, call.request.Decoded) : (run verifier s calls).Fits := by
  obtain ⟨-, rfl⟩ := bootstrapped_eq hboot
  refine (run_inv (P := fun t => Consistent t ∧ t.Fits) ⟨.initial config, .initial config⟩ ?_).2
  rintro t call hmem ⟨ht, hfits⟩
  exact ⟨ht.change (step_change ht call), hfits.step ht (hcalls call hmem)⟩

end Steps

section Storable

variable [Crypto]

/-- A record is encoded, and what is written is read back as the record. -/
def ReadsBack {α : Type} (encode : α → Except StorageError Bytes)
    (decode : Bytes → Except StorageError α) (record : α) : Prop :=
  ∃ bytes, encode record = .ok bytes ∧ decode bytes = .ok record

/-- All that a database keeps is read back as it was written. -/
structure OregonDb.ReadsBack (db : OregonDb) : Prop where
  blocks : ∀ (id : Hash256) (block : Block), db.blocks[id]? = some block →
    db.getBlock id = .ok (some block)
  index : ∀ (id : Hash256) (r : BlockIndexRecord), db.blockIndex[id]? = some r →
    r.header.blockId = id ∧ Oregon.ReadsBack encodeBlockIndex decodeBlockIndex r
  undo : ∀ (id : Hash256) (undo : BlockUndo), db.undo[id]? = some undo →
    Oregon.ReadsBack encodeBlockUndo decodeBlockUndo undo
  utxo : ∀ (o : OutPoint) (entry : UtxoEntry), db.utxo[o]? = some entry →
    decodeOutpointKey (encodeOutpointKey o) = .ok o ∧
      Oregon.ReadsBack encodeUtxoEntry decodeUtxoEntry entry

theorem OregonDb.Fits.readsBack {db : OregonDb} (h : db.Fits) : db.ReadsBack where
  blocks id block hblock := by
    obtain ⟨hid, hwithin⟩ := h.blocks id block hblock
    simp [OregonDb.getBlock, hblock, Block.decode_encode hwithin, hid, ensure, ok_bind, pure,
      Except.pure, Except.mapError]
  index id r hr := ⟨(h.index id r hr).1, _, (h.index id r hr).2.encode, (h.index id r hr).2.decode⟩
  undo id undo hundo := ⟨_, (h.undo id undo hundo).encode, (h.undo id undo hundo).decode⟩
  utxo o entry he := ⟨decodeOutpointKey_encode o, _, (h.utxo o entry he).encode,
    (h.utxo o entry he).decode⟩

/-- Storage neither refuses nor distorts what consensus accepted. In every state reached with
blocks from the decoder all records read back, and a batch built for one more block is encoded,
is written unless the disk fails, and leaves a database whose records again read back. -/
theorem accepted_blocks_storable {config : ChainConfig} {s₀ : ChainState} {calls : List Call}
    (verifier : SpendVerifier) (hboot : Bootstrapped config s₀)
    (hcalls : ∀ call ∈ calls, call.request.Decoded) :
    (run verifier s₀ calls).db.ReadsBack ∧
    ∀ (bytes : Bytes) (block : Block) (engine : Option PowError) (c : Commit AcceptOutcome),
      Block.decode bytes .default = .ok block →
      acceptBlockHealthy (run verifier s₀ calls) block verifier engine = .ok (.commit c) →
      encodeOperations c.batch = .ok () ∧
      ∃ db, (run verifier s₀ calls).db.commit none c.batch = .ok db ∧
        (∀ op ∈ c.batch, op.Held db) ∧ db.ReadsBack := by
  have hs : Consistent (run verifier s₀ calls) := (run_consistent hboot).1
  have hfits : (run verifier s₀ calls).Fits := run_fits hboot hcalls
  refine ⟨hfits.db.readsBack, fun bytes block engine c hdecode haction => ?_⟩
  have hstores := acceptBlockHealthy_stores hs hfits (within_of_decode hdecode) haction
  have hencode : encodeOperations c.batch = .ok () :=
    forM_eq_ok.mpr fun op hop => (hstores.batch op hop).encode
  refine ⟨hencode, c.batch.foldl OregonDb.apply (run verifier s₀ calls).db, ?_, ?_, ?_⟩
  · rw [OregonDb.commit, hencode]
    rfl
  · exact held_of_distinct hstores.distinct _
  · exact (hfits.db.batch hstores.batch).readsBack

end Storable

section Sample

open scoped Sample

/-- The batch an action hands over. -/
def Action.batch? {α : Type} : Result (Action α) → Option (List StorageOp)
  | .ok (.commit c) => some c.batch
  | _ => none

theorem Action.batch?_eq_some {α : Type} {action : Result (Action α)} {batch : List StorageOp}
    (h : Action.batch? action = some batch) : ∃ c, action = .ok (.commit c) ∧ c.batch = batch := by
  rcases action with e | (reply | c)
  · cases h
  · cases h
  · exact ⟨c, rfl, Option.some.inj h⟩

/-- After the first block the second is accepted, and what it commits is stored. -/
theorem accepted_blocks_storable_second :
    ∃ c, acceptBlockHealthy (run Sample.verifier (.initial Sample.config)
        [Sample.deliver Sample.first]) Sample.second Sample.verifier none = .ok (.commit c) ∧
      encodeOperations c.batch = .ok () ∧ ∃ op ∈ c.batch, op.slot = some (.undo
        Sample.second.header.blockId) := by
  have hcommit : ∃ batch ∈ Action.batch? (acceptBlockHealthy (run Sample.verifier
      (.initial Sample.config) [Sample.deliver Sample.first]) Sample.second Sample.verifier none),
      batch.any (fun op => op.slot = some (.undo Sample.second.header.blockId)) = true := by
    decide +kernel
  obtain ⟨_, hbatch, hundo⟩ := hcommit
  obtain ⟨c, haction, rfl⟩ := Action.batch?_eq_some hbatch
  have hstored := (accepted_blocks_storable Sample.verifier
    (bootstrapped_initial (by decide +kernel))
    (fun call hcall => by
      rw [List.mem_singleton.mp hcall]
      exact ⟨Sample.first.encode, by decide +kernel⟩)).2
    Sample.second.encode Sample.second none c (by decide +kernel) haction
  exact ⟨c, haction, hstored.1, by simpa using hundo⟩

end Sample

end Oregon
