import Oregon.Sanity.Invariant
import Oregon.Sanity.Records
import Oregon.Sanity.Delta

/-! The bounds of the storage format follow from those of the decoder and of the rules:
programs from the decoder's limits, the counts of an undo record from the size of a block, the
chain work from the range of heights. -/

namespace Oregon

open Lib

section Work

theorem blockWork_le (t : Target) : blockWork t ≤ 2 ^ 255 := by
  have hpos : 1 ≤ t.toNat := by
    have hne : t.value.toNat ≠ 0 := fun h => t.ne_zero (BitVec.eq_of_toNat_eq h)
    exact Nat.one_le_iff_ne_zero.mpr hne
  rw [blockWork, Nat.div_le_iff_le_mul_add_pred (Nat.succ_pos _)]
  nlinarith

theorem ChildOf.work_le {params : ConsensusParams} {p r : BlockIndexRecord}
    (h : ChildOf params p r) (hp : p.cumulativeWork ≤ 2 ^ 255 * p.height) :
    r.cumulativeWork ≤ 2 ^ 255 * r.height := by
  obtain ⟨t, -, -, hwork⟩ := h.work
  have := blockWork_le t
  rw [hwork, h.height, Nat.mul_succ]
  omega

variable [Crypto] {config : ChainConfig} {index : Std.ExtTreeMap Hash256 BlockIndexRecord}

/-- Every block adds at most `2 ^ 255` to the work. -/
theorem IndexOk.work_le (hok : IndexOk config index) {id : Hash256} {r : BlockIndexRecord}
    (hr : index[id]? = some r) : r.cumulativeWork ≤ 2 ^ 255 * r.height := by
  induction hheight : r.height generalizing id r with
  | zero =>
    rcases hok.linked id r hr with rfl | ⟨p, -, hchild⟩
    · rw [hok.anchor] at hr
      obtain rfl := Option.some.inj hr
      exact Nat.zero_le _
    · have := hchild.height
      omega
  | succ n ih =>
    rcases hok.linked id r hr with rfl | ⟨p, hp, hchild⟩
    · rw [hok.anchor] at hr
      obtain rfl := Option.some.inj hr
      exact Nat.zero_le _
    · have hpn : p.height = n := by
        have := hchild.height
        omega
      rw [← hheight]
      exact hchild.work_le (hpn ▸ ih hp hpn)

omit [Crypto] in
theorem pow_mul_pow_lt {a b c : ℕ} (h : a + b < c) : 2 ^ a * 2 ^ b < 2 ^ c := by
  rw [← pow_add]
  exact Nat.pow_lt_pow_right (by decide) h

omit [Crypto] in
theorem fits_of_bounds {r : BlockIndexRecord} (hparent : r.parent = r.header.previousBlock)
    (hwork : r.cumulativeWork ≤ 2 ^ 255 * r.height) (hheight : r.height < 2 ^ 64) : r.Fits := by
  refine ⟨hparent, ?_, hheight⟩
  calc r.cumulativeWork ≤ 2 ^ 255 * r.height := hwork
    _ ≤ 2 ^ 255 * 2 ^ 64 := Nat.mul_le_mul_left _ hheight.le
    _ < 2 ^ 320 := pow_mul_pow_lt (by decide)

theorem IndexOk.fits (hok : IndexOk config index) {id : Hash256} {r : BlockIndexRecord}
    (hr : index[id]? = some r) : r.Fits :=
  fits_of_bounds (hok.ident id r hr).2 (hok.work_le hr) (hok.height_range hr)

theorem Fresh.fits {s : ChainState} (hok : IndexOk s.config s.db.blockIndex)
    {r : BlockIndexRecord} (h : Fresh s r) : r.Fits := by
  obtain ⟨p, hp, -, hchild⟩ := h.link
  exact fits_of_bounds h.parent_eq (hchild.work_le (hok.work_le hp)) hchild.range

theorem Source.fits {s : ChainState} (hok : IndexOk s.config s.db.blockIndex) {id : Hash256}
    {r : BlockIndexRecord} (h : Source s id r) : r.Fits := by
  rcases h with hknown | ⟨hfresh, -⟩
  · exact hok.fits hknown
  · exact hfresh.fits hok

omit [Crypto] in
theorem SameShape.fits {r r' : BlockIndexRecord} (h : SameShape r r') (hr : r.Fits) : r'.Fits := by
  obtain ⟨hheader, hparent, hheight, hwork⟩ := h
  exact ⟨by rw [hparent, hheader, hr.parent], by rw [hwork]; exact hr.work,
    by rw [hheight]; exact hr.height⟩

end Work

section Sizes

theorem encode_length_flatMap {α : Type} {enc : α → Bytes} {size : ℕ} {xs : List α}
    (h : ∀ x ∈ xs, size ≤ (enc x).length) : xs.length * size ≤ (xs.flatMap enc).length := by
  induction xs with
  | nil => simp
  | cons x xs ih =>
    have hx := h x (List.mem_cons_self ..)
    have := ih fun y hy => h y (List.mem_cons_of_mem _ hy)
    rw [List.flatMap_cons, List.length_append, List.length_cons, Nat.succ_mul]
    omega

/-- An input takes at least forty bytes and an output at least eight. -/
theorem Transaction.counts_le (tx : Transaction) :
    tx.inputs.length * 40 + tx.outputs.length * 8 ≤ tx.encode.length := by
  have hinputs : tx.inputs.length * 40 ≤ (tx.inputs.flatMap TxInput.encode).length :=
    encode_length_flatMap fun i _ => by
      simp only [TxInput.encode, Hash256.asBytes, List.length_append, List.length_reverse,
        leBytes_length]
      omega
  have houtputs : tx.outputs.length * 8 ≤ (tx.outputs.flatMap TxOutput.encode).length :=
    encode_length_flatMap fun o _ => by
      simp only [TxOutput.encode, List.length_append, leBytes_length]
      omega
  simp only [Transaction.encode, List.length_append]
  omega

def Block.inputs (block : Block) : List TxInput := block.transactions.flatMap Transaction.inputs

def Block.outputs (block : Block) : List TxOutput := block.transactions.flatMap Transaction.outputs

theorem Block.counts_le (block : Block) :
    block.inputs.length * 40 + block.outputs.length * 8 ≤ block.encode.length := by
  have htxs : (block.transactions.flatMap Transaction.inputs).length * 40 +
      (block.transactions.flatMap Transaction.outputs).length * 8 ≤
        (block.transactions.flatMap Transaction.encode).length := by
    induction block.transactions with
    | nil => simp
    | cons tx txs ih =>
      have := tx.counts_le
      grind
  simp only [Block.encode, Block.inputs, Block.outputs, List.length_append]
  omega

end Sizes

section Connect

theorem Moves.entry {s s' : UtxoState} {spent : List OutPoint}
    {created : List (OutPoint × UtxoEntry)} (h : Moves s spent created s') {o : OutPoint}
    {e : UtxoEntry} (he : s'.entries[o]? = some e) : s.entries[o]? = some e ∨ (o, e) ∈ created := by
  by_cases hc : o ∈ created.map Prod.fst
  · obtain ⟨⟨_, e'⟩, hmem, rfl⟩ := List.mem_map.mp hc
    rw [h.result, lookup_insertMany_of_mem h.keys hmem, Option.some.injEq] at he
    exact Or.inr (he ▸ hmem)
  · rw [h.get_of_notMem hc] at he
    split_ifs at he
    exact Or.inl he

theorem Moves.lost {s s' : UtxoState} {spent : List OutPoint}
    {created : List (OutPoint × UtxoEntry)} (h : Moves s spent created s') {o : OutPoint}
    (ho : o ∈ s.entries) (ho' : o ∉ s'.entries) : o ∈ spent := by
  have hc : o ∉ created.map Prod.fst := by
    intro hc
    obtain ⟨e, he, rfl⟩ := List.mem_map.mp hc
    exact h.fresh e he ho
  rw [notMem_iff_lookup, h.get_of_notMem hc] at ho'
  simp_all

theorem strictlySorted_of_pairwise {l : List OutPoint}
    (h : l.Pairwise fun a b => compare a b = .lt) : strictlySorted l = true := by
  induction l with
  | nil => rfl
  | cons a l ih =>
    cases l with
    | nil => rfl
    | cons b l =>
      obtain ⟨ha, hl⟩ := List.pairwise_cons.mp h
      rw [strictlySorted, ha b (List.mem_cons_self ..), ih hl]
      rfl

variable [Crypto]

theorem NormalSteps.entry {height fees : ℕ} {s s' : UtxoState} {txs : List Transaction}
    (h : NormalSteps height s txs s' fees) {o : OutPoint} {e : UtxoEntry}
    (he : s'.entries[o]? = some e) :
    s.entries[o]? = some e ∨ ∃ tx ∈ txs, (o, e) ∈ createdBy tx height false := by
  induction h with
  | nil => exact Or.inl he
  | cons head _ ih =>
    rcases ih he with hmid | ⟨tx, htx, hcreated⟩
    · rcases head.moves.entry hmid with hold | hnew
      · exact Or.inl hold
      · exact Or.inr ⟨_, List.mem_cons_self .., hnew⟩
    · exact Or.inr ⟨tx, List.mem_cons_of_mem _ htx, hcreated⟩

theorem NormalSteps.lost {height fees : ℕ} {s s' : UtxoState} {txs : List Transaction}
    (h : NormalSteps height s txs s' fees) {o : OutPoint} (ho : o ∈ s.entries)
    (ho' : o ∉ s'.entries) : o ∈ (txs.flatMap Transaction.inputs).map TxInput.outpoint := by
  induction h with
  | nil => exact absurd ho ho'
  | @cons s s₁ s' tx txs _ _ head _ ih =>
    rw [List.flatMap_cons, List.map_append, List.mem_append]
    by_cases hmid : o ∈ s₁.entries
    · exact Or.inr (ih hmid ho')
    · exact Or.inl (head.moves.lost ho hmid)

variable {s s' : UtxoState} {block : Block} {height : ℕ} {params : ConsensusParams}
  {verifier : SpendVerifier} {undo : BlockUndo}

/-- An entry after a block is an old one or an output of the block at its height. -/
theorem connectBlock_entry (h : s.connectBlock block height params verifier = .ok (s', undo))
    {o : OutPoint} {e : UtxoEntry} (he : s'.entries[o]? = some e) :
    s.entries[o]? = some e ∨ ∃ tx ∈ block.transactions, ∃ isCoinbase,
      (o, e) ∈ createdBy tx height isCoinbase := by
  obtain ⟨-, coinbase, normals, mid, fees, hsteps⟩ := connectBlock_ok h
  rw [hsteps.skeleton.transactions]
  rcases hsteps.issue.entry he with hmid | hnew
  · rcases hsteps.normal.entry hmid with hold | ⟨tx, htx, hcreated⟩
    · exact Or.inl hold
    · exact Or.inr ⟨tx, List.mem_cons_of_mem _ htx, false, hcreated⟩
  · exact Or.inr ⟨coinbase, List.mem_cons_self .., true, hnew⟩

theorem mem_createdBy {tx : Transaction} {isCoinbase : Bool} {o : OutPoint} {e : UtxoEntry}
    (h : (o, e) ∈ createdBy tx height isCoinbase) :
    e.output ∈ tx.outputs ∧ e.creationHeight = height := by
  obtain ⟨⟨output, i⟩, hmem, heq⟩ := List.mem_map.mp h
  grind

theorem connectBlock_fits (h : s.connectBlock block height params verifier = .ok (s', undo))
    (hblock : block.Within .default) (hheight : height < 2 ^ 64)
    (hs : ∀ (o : OutPoint) (e : UtxoEntry), s.entries[o]? = some e → e.Fits) :
    ∀ (o : OutPoint) (e : UtxoEntry), s'.entries[o]? = some e → e.Fits := by
  intro o e he
  rcases connectBlock_entry h he with hold | ⟨tx, htx, isCoinbase, hcreated⟩
  · exact hs o e hold
  · obtain ⟨hmem, hcreation⟩ := mem_createdBy hcreated
    have hlimit : DecodeLimits.default.maxLockingProgramBytes.toNat = MAX_LOCKING_PROGRAM_BYTES := by
      decide
    exact ⟨hlimit ▸ (hblock.transactions tx htx).outputs _ hmem, hcreation ▸ hheight⟩

omit [Crypto] in
theorem mem_undoBetween_created {o : OutPoint} :
    o ∈ (UtxoState.undoBetween s s').created ↔ o ∈ s'.entries ∧ o ∉ s.entries := by
  rw [UtxoState.undoBetween, Std.ExtTreeMap.mem_keys]
  grind

omit [Crypto] in
theorem mem_undoBetween_spent {o : OutPoint} {e : UtxoEntry} :
    (o, e) ∈ (UtxoState.undoBetween s s').spent ↔ s.entries[o]? = some e ∧ o ∉ s'.entries := by
  change (o, e) ∈ (lostFrom s.entries s'.entries).toList ↔ _
  grind [lookup_lostFrom]

theorem connectBlock_lost (h : s.connectBlock block height params verifier = .ok (s', undo))
    {o : OutPoint} (ho : o ∈ s.entries) (ho' : o ∉ s'.entries) :
    o ∈ block.inputs.map TxInput.outpoint := by
  obtain ⟨-, coinbase, normals, mid, fees, hsteps⟩ := connectBlock_ok h
  rw [Block.inputs, hsteps.skeleton.transactions, List.flatMap_cons, List.map_append]
  by_cases hmid : o ∈ mid.entries
  · exact absurd (hsteps.issue.lost hmid ho') List.not_mem_nil
  · exact List.mem_append_right _ (hsteps.normal.lost ho hmid)

/-- The outpoints that the outputs of a block have. -/
def Block.outpoints (block : Block) (height : ℕ) : List OutPoint :=
  block.transactions.flatMap fun tx => (createdBy tx height false).map Prod.fst

theorem Block.outpoints_length (block : Block) (height : ℕ) :
    (block.outpoints height).length = block.outputs.length := by
  simp [Block.outpoints, Block.outputs, List.length_flatMap, createdBy]

theorem connectBlock_gained (h : s.connectBlock block height params verifier = .ok (s', undo))
    {o : OutPoint} (ho : o ∉ s.entries) (ho' : o ∈ s'.entries) : o ∈ block.outpoints height := by
  obtain ⟨e, he⟩ := (mem_iff_lookup _ _).mp ho'
  rcases connectBlock_entry h he with hold | ⟨tx, htx, isCoinbase, hcreated⟩
  · exact absurd ((mem_iff_lookup _ _).mpr ⟨e, hold⟩) ho
  · refine List.mem_flatMap.mpr ⟨tx, htx, ?_⟩
    obtain ⟨p, hp, heq⟩ := List.mem_map.mp hcreated
    obtain ⟨rfl, -⟩ := Prod.mk.inj heq
    exact List.mem_map.mpr ⟨_, List.mem_map_of_mem hp, rfl⟩

/-- The undo record of a block that has been connected is within the bounds. -/
theorem connectBlock_undo_fits (h : s.connectBlock block height params verifier = .ok (s', undo))
    (hs : ∀ (o : OutPoint) (e : UtxoEntry), s.entries[o]? = some e → e.Fits) : undo.Fits := by
  obtain ⟨rfl, coinbase, normals, mid, fees, hsteps⟩ := connectBlock_ok h
  have hcounts := block.counts_le
  have hsize := hsteps.skeleton.size
  have hmax : MAX_BLOCK_BYTES = 1048576 := rfl
  have hbound : MAX_UNDO_ENTRIES = 1000000 := rfl
  have hkeys : (UtxoState.undoBetween s s').spent.map Prod.fst =
      (lostFrom s.entries s'.entries).keys := Std.ExtTreeMap.map_fst_toList_eq_keys
  have hspent : (UtxoState.undoBetween s s').spent.length ≤ block.inputs.length := by
    have hle : ((UtxoState.undoBetween s s').spent.map Prod.fst).length ≤
        (block.inputs.map TxInput.outpoint).length := by
      refine (nodup_toList_keys _).length_le_of_subset fun o ho => ?_
      obtain ⟨⟨_, e⟩, hmem, rfl⟩ := List.mem_map.mp ho
      grind [connectBlock_lost]
    rwa [List.length_map, List.length_map] at hle
  have hcreated : (UtxoState.undoBetween s s').created.length ≤ block.outputs.length := by
    rw [← block.outpoints_length height]
    refine Std.ExtTreeMap.nodup_keys.length_le_of_subset fun o ho => ?_
    grind [connectBlock_gained]
  refine ⟨by omega, by omega, ?_, ?_, fun o ho hmem => ?_, fun p hp => ?_⟩
  · rw [hkeys]
    exact strictlySorted_of_pairwise Std.ExtTreeMap.ordered_keys
  · exact strictlySorted_of_pairwise Std.ExtTreeMap.ordered_keys
  · obtain ⟨⟨_, e⟩, hspent, rfl⟩ := List.mem_map.mp hmem
    exact (mem_undoBetween_spent.mp hspent).2 (mem_undoBetween_created.mp ho).1
  · exact hs p.1 p.2 (mem_undoBetween_spent.mp hp).1

end Connect

section Delta

/-- Every entry of a UTXO set, or put by pending changes, is within the bounds. -/
def UtxoMap.Fits (m : UtxoMap) : Prop :=
  ∀ (o : OutPoint) (e : UtxoEntry), m[o]? = some e → e.Fits

def UtxoDelta.Fits (delta : UtxoDelta) : Prop :=
  ∀ (o : OutPoint) (e : UtxoEntry), delta[o]? = some (some e) → e.Fits

theorem UtxoDelta.Fits.collect {delta : UtxoDelta} {changes : List (OutPoint × Option UtxoEntry)}
    (h : delta.Fits) (hchanges : ∀ o e, (o, some e) ∈ changes → e.Fits) :
    UtxoDelta.Fits (changes.foldl (fun d e => d.insert e.1 e.2) delta) := by
  induction changes generalizing delta with
  | nil => exact h
  | cons change changes ih =>
    refine ih (fun o e he => ?_) fun o e he => hchanges o e (List.mem_cons_of_mem _ he)
    rw [lookup_insert] at he
    split_ifs at he with hkey
    · grind
    · exact h o e he

theorem recordConnect_fits {missing : String} {delta delta' : UtxoDelta} {staged : UtxoState}
    {undo : BlockUndo} (h : recordConnect missing delta staged undo = .ok delta')
    (hdelta : delta.Fits) (hstaged : UtxoMap.Fits staged.entries) : delta'.Fits := by
  obtain ⟨-, rfl⟩ := recordConnect_ok.mp h
  refine hdelta.collect fun o e he => ?_
  rcases List.mem_append.mp he with hspent | hcreated
  · simp_all
  · obtain ⟨o', -, heq⟩ := List.mem_map.mp hcreated
    obtain ⟨rfl, hget⟩ := Prod.mk.inj heq
    exact hstaged _ _ hget

theorem disconnectChanges_fits {undo : BlockUndo} (hundo : undo.Fits) (o : OutPoint) (e : UtxoEntry)
    (he : (o, some e) ∈ undo.disconnectChanges) : e.Fits := by
  rcases List.mem_append.mp he with hcreated | hspent
  · simp_all
  · obtain ⟨p, hp, heq⟩ := List.mem_map.mp hspent
    obtain ⟨-, hentry⟩ := Prod.mk.inj heq
    exact Option.some.inj hentry ▸ hundo.entries p hp

theorem disconnectActive_fits {old : List (Hash256 × BlockUndo)} {staged base : UtxoState}
    {delta delta' : UtxoDelta} (h : disconnectActive staged delta old = .ok (base, delta'))
    (hold : ∀ p ∈ old, p.2.Fits) (hstaged : UtxoMap.Fits staged.entries) (hdelta : delta.Fits) :
    UtxoMap.Fits base.entries ∧ delta'.Fits := by
  induction old generalizing staged delta with
  | nil =>
    obtain ⟨rfl, rfl⟩ := Prod.mk.inj (pure_eq_ok.mp h)
    exact ⟨hstaged, hdelta⟩
  | cons p old ih =>
    obtain ⟨id, undo⟩ := p
    have hundo : undo.Fits := hold _ (List.mem_cons_self ..)
    simp only [disconnectActive, bind_eq_ok, mapError_eq_ok] at h
    obtain ⟨mid, hmid, h⟩ := h
    refine ih h (fun q hq => hold q (List.mem_cons_of_mem _ hq)) (fun o e he => ?_) ?_
    · rw [disconnectBlock_ok hmid] at he
      rcases lookup_applyChanges_cases undo.disconnectChanges staged.entries o with
        ⟨-, heq⟩ | ⟨_, hmem, heq⟩
      · exact hstaged o e (heq ▸ he)
      · grind [disconnectChanges_fits]
    · rw [recordDisconnectDelta_eq]
      exact hdelta.collect (disconnectChanges_fits hundo)

variable [Crypto]

theorem connectCandidates_fits {params : ConsensusParams} {verifier : SpendVerifier}
    {path : List ReorgCandidate} {staged staged' : UtxoState} {delta delta' : UtxoDelta}
    {undos : List BlockUndo}
    (h : connectCandidates params verifier path staged delta = .ok (staged', delta', undos))
    (hpath : ∀ c ∈ path, c.block.Within .default ∧ c.index.height < 2 ^ 64)
    (hstaged : UtxoMap.Fits staged.entries) (hdelta : delta.Fits) :
    UtxoMap.Fits staged'.entries ∧ delta'.Fits ∧ ∀ undo ∈ undos, undo.Fits := by
  induction path generalizing staged delta undos with
  | nil =>
    obtain ⟨rfl, rfl, rfl⟩ := h
    exact ⟨hstaged, hdelta, fun _ hmem => absurd hmem List.not_mem_nil⟩
  | cons node path ih =>
    obtain ⟨mid, undo, delta₁, undos₁, hconnect, hrecord, hrest, rfl⟩ :=
      connectCandidates_cons_ok h
    obtain ⟨hwithin, hheight⟩ := hpath node (List.mem_cons_self ..)
    have hmid : UtxoMap.Fits mid.entries := connectBlock_fits hconnect hwithin hheight hstaged
    obtain ⟨hfinal, hdelta', hundos⟩ := ih hrest (fun c hc => hpath c (List.mem_cons_of_mem _ hc))
      hmid (recordConnect_fits hrecord hdelta hmid)
    exact ⟨hfinal, hdelta',
      List.forall_mem_cons.mpr ⟨connectBlock_undo_fits hconnect hstaged, hundos⟩⟩

end Delta

section Operations

/-- An operation whose record is within the bounds of the storage format. -/
def StorageOp.Fits : StorageOp → Prop
  | .putBlock block => block.Within .default
  | .putIndex record => record.Fits
  | .putUtxo _ entry => entry.Fits
  | .putUndo _ undo => undo.Fits
  | _ => True

theorem StorageOp.Fits.encode {op : StorageOp} (h : op.Fits) : encodeOperation op = .ok () := by
  cases op with
  | putIndex record => exact map_eq_ok.mpr ⟨_, BlockIndexRecord.Fits.encode h, rfl⟩
  | putUtxo o entry => exact map_eq_ok.mpr ⟨_, UtxoEntry.Fits.encode h, rfl⟩
  | putUndo id undo => exact map_eq_ok.mpr ⟨_, BlockUndo.Fits.encode h, rfl⟩
  | _ => rfl

theorem applyUtxoDelta_fits {delta : UtxoDelta} (h : delta.Fits) :
    ∀ op ∈ applyUtxoDelta delta, op.Fits := by
  intro op hop
  obtain ⟨⟨o, entry⟩, hmem, rfl⟩ := List.mem_map.mp hop
  rw [Std.ExtTreeMap.mem_toList_iff_getElem?_eq_some] at hmem
  cases entry with
  | none => trivial
  | some e => exact h o e hmem

theorem preferOp_fits (becomesPreferred : Bool) (tip : Tip) :
    ∀ op ∈ preferOp becomesPreferred tip, op.Fits := by
  intro op hop
  unfold preferOp at hop
  split_ifs at hop
  · rw [List.mem_singleton.mp hop]
    trivial
  · exact absurd hop List.not_mem_nil

end Operations

end Oregon
