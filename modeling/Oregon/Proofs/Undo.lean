import Oregon.Sanity.Codec
import Oregon.Sanity.Sample

/-! Disconnecting a block restores the set it was connected to. The undo record
only knows which keys came and went, so this rests on a fact about whole chains: no
transaction id is ever connected twice, because every normal transaction spends an
output that is gone afterwards and every coinbase carries its height. -/

namespace Oregon

open Lib

section Restore

/-- An undo record of a set that kept the entries it shares with the old one undoes it. -/
theorem disconnect_undoBetween {s s' : UtxoState}
    (hagree : ∀ o ∈ s.entries, o ∈ s'.entries → s'.entries[o]? = s.entries[o]?) :
    s'.disconnectBlock (UtxoState.undoBetween s s') = .ok s := by
  have hcreated : ∀ o ∈ (lostFrom s'.entries s.entries).keys, o ∈ s'.entries ∧ o ∉ s.entries := by
    intro o ho
    rw [Std.ExtTreeMap.mem_keys, mem_iff_lookup] at ho
    grind [lookup_lostFrom]
  have hspent : ∀ e ∈ (lostFrom s.entries s'.entries).toList, e.1 ∈ s.entries ∧ e.1 ∉ s'.entries := by
    grind [lookup_lostFrom]
  have herase := eraseEach_ok UtxoError.undoMismatch (m := s'.entries)
    (Std.ExtTreeMap.nodup_keys (t := lostFrom s'.entries s.entries))
    fun o ho => (hcreated o ho).1
  have hinsert := insertEach_ok (fun _ => UtxoError.undoMismatch)
    (m := (lostFrom s'.entries s.entries).keys.foldl (·.erase ·) s'.entries)
    (l := (lostFrom s.entries s'.entries).toList) (nodup_toList_keys _) fun e he => by
      rw [notMem_iff_lookup, lookup_eraseAll, (notMem_iff_lookup _ _).mp (hspent e he).2, ite_self]
  rw [undo_restores hagree] at hinsert
  simp only [UtxoState.disconnectBlock, bind_eq_ok, ensure_eq_ok, exists_and_left, exists_const,
    pure_eq_ok]
  exact ⟨⟨Std.ExtTreeMap.nodup_keys, fun o ho => (hcreated o ho).1⟩,
    ⟨nodup_toList_keys _, fun e he => ⟨fun hc => (hcreated e.1 hc).2 (hspent e he).1,
      (hspent e he).2⟩⟩, _, herase, _, hinsert, rfl⟩

end Restore

section Provenance

variable [Crypto]

/-- The set `s` was built by the transactions `txs`, the coinbases among them at
heights up to `height`. -/
structure Provenance (txs : List Transaction) (height : ℕ) (s : UtxoState) : Prop where
  origin : ∀ o ∈ s.entries, ∃ tx ∈ txs, tx.txid = o.txid
  spent : ∀ tx ∈ txs, isCoinbaseForm tx = false → ∀ i ∈ tx.inputs,
    i.outpoint ∉ s.entries ∧ ∃ tx' ∈ txs, tx'.txid = i.previousTxid
  nodup : (txs.map Transaction.txid).Nodup
  coinbase : ∀ tx ∈ txs, isCoinbaseForm tx = true → ∃ k ≤ height, ∃ input,
    tx.inputs.head? = some input ∧ input.witness.head? = some (writeVarint k)

theorem Provenance.perm {txs txs' : List Transaction} {height : ℕ} {s : UtxoState}
    (hp : txs.Perm txs') (h : Provenance txs height s) : Provenance txs' height s where
  origin o ho := by
    obtain ⟨tx, htx, hid⟩ := h.origin o ho
    exact ⟨tx, hp.subset htx, hid⟩
  spent tx htx hform i hi := by
    obtain ⟨hgone, tx', htx', hid⟩ := h.spent tx (hp.symm.subset htx) hform i hi
    exact ⟨hgone, tx', hp.subset htx', hid⟩
  nodup := (hp.map _).nodup_iff.mp h.nodup
  coinbase tx htx := h.coinbase tx (hp.symm.subset htx)

theorem Provenance.mono {txs : List Transaction} {height height' : ℕ} {s : UtxoState}
    (hle : height ≤ height') (h : Provenance txs height s) : Provenance txs height' s where
  origin := h.origin
  spent := h.spent
  nodup := h.nodup
  coinbase tx htx hform := by
    obtain ⟨k, hk, hw⟩ := h.coinbase tx htx hform
    exact ⟨k, hk.trans hle, hw⟩

theorem Provenance.fresh_normal {txs : List Transaction} {height : ℕ} {s : UtxoState}
    {tx : Transaction} (h : Provenance txs height s)
    (hinj : Set.InjOn Transaction.txid {t | t = tx ∨ t ∈ txs}) (hform : isCoinbaseForm tx = false)
    (hne : tx.inputs ≠ []) (hpresent : ∀ i ∈ tx.inputs, i.outpoint ∈ s.entries) :
    ∀ t ∈ txs, t.txid ≠ tx.txid := by
  intro t ht heq
  obtain rfl : t = tx := hinj (Or.inr ht) (Or.inl rfl) heq
  obtain ⟨i, rest, hinputs⟩ := List.exists_cons_of_ne_nil hne
  have hi : i ∈ t.inputs := by simp [hinputs]
  exact (h.spent t ht hform i hi).1 (hpresent i hi)

theorem Provenance.fresh_coinbase {txs : List Transaction} {height height' fees : ℕ}
    {s : UtxoState} {tx : Transaction} (h : Provenance txs height s)
    (hinj : Set.InjOn Transaction.txid {t | t = tx ∨ t ∈ txs}) (hcb : CoinbaseOk tx height' fees)
    (hlt : height < height') (hmax : height' < 2 ^ 64) : ∀ t ∈ txs, t.txid ≠ tx.txid := by
  intro t ht heq
  obtain rfl : t = tx := hinj (Or.inr ht) (Or.inl rfl) heq
  obtain ⟨k, hk, input, hinput, hwitness⟩ := h.coinbase t ht hcb.coinbaseForm
  obtain ⟨input', hinput', hwitness'⟩ := hcb.witness
  obtain rfl : input = input' := Option.some.inj (hinput.symm.trans hinput')
  have hk' := writeVarint_inj (by omega) hmax (Option.some.inj (hwitness.symm.trans hwitness'))
  omega

/-- Entries made by `txs` are either gone or as they were. -/
def Keeps (txs : List Transaction) (s s' : UtxoState) : Prop :=
  ∀ o : OutPoint, (∃ tx ∈ txs, tx.txid = o.txid) → o ∈ s'.entries → s'.entries[o]? = s.entries[o]?

theorem keeps_of_moves {txs : List Transaction} {s s' : UtxoState} {spent : List OutPoint}
    {tx : Transaction} {height : ℕ} {isCoinbase : Bool}
    (hmoves : Moves s spent (createdBy tx height isCoinbase) s')
    (hfresh : ∀ t ∈ txs, t.txid ≠ tx.txid) : Keeps txs s s' := by
  rintro o ⟨t, ht, hid⟩ ho
  have hnot : o ∉ (createdBy tx height isCoinbase).map Prod.fst := fun hc =>
    hfresh t ht (hid.trans (txid_of_createdBy hc))
  have hget := hmoves.get_of_notMem hnot
  simp_all

/-- A move by a fresh transaction extends the provenance, given that it spends
exactly its inputs if it is a normal one and carries a height if it is a coinbase. -/
theorem Provenance.cons {txs : List Transaction} {height height' : ℕ} {s s' : UtxoState}
    {spent : List OutPoint} {tx : Transaction} {isCoinbase : Bool} (h : Provenance txs height s)
    (hmoves : Moves s spent (createdBy tx height' isCoinbase) s')
    (hfresh : ∀ t ∈ txs, t.txid ≠ tx.txid)
    (hspent : isCoinbaseForm tx = false → spent = tx.inputs.map TxInput.outpoint)
    (hcb : isCoinbaseForm tx = true → ∃ k ≤ height, ∃ input,
      tx.inputs.head? = some input ∧ input.witness.head? = some (writeVarint k)) :
    Provenance (tx :: txs) height s' where
  origin o ho := by
    rcases hmoves.mem_or_created ho with ho | ho
    · obtain ⟨t, ht, hid⟩ := h.origin o ho
      exact ⟨t, List.mem_cons_of_mem _ ht, hid⟩
    · exact ⟨tx, List.mem_cons_self .., (txid_of_createdBy ho).symm⟩
  spent t ht hform i hi := by
    -- an outpoint of an earlier transaction is not among the outputs of this one
    have hold : ∀ t' ∈ txs, t'.txid = i.previousTxid →
        i.outpoint ∉ (createdBy tx height' isCoinbase).map Prod.fst := fun t' ht' hid hc =>
      hfresh t' ht' (hid.trans (txid_of_createdBy hc))
    rcases List.mem_cons.mp ht with rfl | ht
    · have hin : i.outpoint ∈ spent := hspent hform ▸ List.mem_map_of_mem hi
      obtain ⟨t', ht', hid⟩ := h.origin _ (hmoves.present _ hin)
      exact ⟨hmoves.notMem_of_spent hin (hold t' ht' hid), t', List.mem_cons_of_mem _ ht', hid⟩
    · obtain ⟨hgone, t', ht', hid⟩ := h.spent t ht hform i hi
      refine ⟨fun hmem => ?_, t', List.mem_cons_of_mem _ ht', hid⟩
      rcases hmoves.mem_or_created hmem with hmem | hc
      · exact hgone hmem
      · exact hold t' ht' hid hc
  nodup := by
    rw [List.map_cons, List.nodup_cons]
    refine ⟨fun hmem => ?_, h.nodup⟩
    grind
  coinbase t ht hform := by
    rcases List.mem_cons.mp ht with rfl | ht
    · exact hcb hform
    · exact h.coinbase t ht hform

theorem Provenance.normalSteps {txs normals : List Transaction} {height height' fees : ℕ}
    {s s' : UtxoState} (hsteps : NormalSteps height' s normals s' fees)
    (hok : ∀ tx ∈ normals, validateNormalTransactionSkeleton tx = .ok ())
    (hinj : Set.InjOn Transaction.txid {t | t ∈ normals ∨ t ∈ txs}) (h : Provenance txs height s) :
    Provenance (normals.reverse ++ txs) height s' ∧ Keeps txs s s' := by
  induction hsteps generalizing txs with
  | nil s => exact ⟨h, fun _ _ _ => rfl⟩
  | @cons s s₁ s' tx normals fee fees head tail ih =>
    obtain ⟨-, hne, -, hform⟩ := normalSkeleton_ok (hok tx (List.mem_cons_self ..))
    have hfresh := h.fresh_normal (hinj.mono (by
      rintro t (rfl | ht)
      · exact Or.inl (List.mem_cons_self ..)
      · exact Or.inr ht)) hform hne fun i hi => head.moves.present _ (List.mem_map_of_mem hi)
    have hcons := h.cons head.moves hfresh (fun _ => rfl) fun hc => by simp [hform] at hc
    obtain ⟨hprov, hkeeps⟩ := ih (fun t ht => hok t (List.mem_cons_of_mem _ ht)) (hinj.mono (by
      rintro t (ht | ht)
      · exact Or.inl (List.mem_cons_of_mem _ ht)
      · rcases List.mem_cons.mp ht with rfl | ht
        · exact Or.inl (List.mem_cons_self ..)
        · exact Or.inr ht)) hcons
    refine ⟨by simpa using hprov, fun o ho hmem => ?_⟩
    have hlast := hkeeps o (by
      obtain ⟨t, ht, hid⟩ := ho
      exact ⟨t, List.mem_cons_of_mem _ ht, hid⟩) hmem
    have hmid : o ∈ s₁.entries := by grind
    exact hlast.trans (keeps_of_moves head.moves hfresh o ho hmid)

/-- A connected block extends the provenance of its transactions and keeps the
entries that were there before. -/
theorem Provenance.block {txs : List Transaction} {height fees : ℕ} {s mid s' : UtxoState}
    {block : Block} {coinbase : Transaction} {normals : List Transaction}
    (hsteps : BlockSteps block (height + 1) s coinbase normals mid fees s')
    (hmax : height + 1 < 2 ^ 64)
    (hinj : Set.InjOn Transaction.txid {t | t ∈ block.transactions ∨ t ∈ txs})
    (h : Provenance txs height s) :
    Provenance (block.transactions ++ txs) (height + 1) s' ∧ Keeps txs s s' := by
  rw [hsteps.skeleton.transactions] at hinj ⊢
  obtain ⟨hmid, hkeeps⟩ := h.normalSteps hsteps.normal hsteps.skeleton.normal (hinj.mono (by
    rintro t (ht | ht)
    · exact Or.inl (List.mem_cons_of_mem _ ht)
    · exact Or.inr ht))
  have hfresh := hmid.fresh_coinbase (hinj.mono (by
    rintro t (rfl | ht)
    · exact Or.inl (List.mem_cons_self ..)
    · rcases List.mem_append.mp ht with ht | ht
      · exact Or.inl (List.mem_cons_of_mem _ (List.mem_reverse.mp ht))
      · exact Or.inr ht)) hsteps.coinbaseOk (Nat.lt_succ_self _) hmax
  obtain ⟨input, hinput, hwitness⟩ := hsteps.coinbaseOk.witness
  have hcons := (hmid.mono (Nat.le_succ _)).cons hsteps.issue hfresh
    (fun hform => by simp [hsteps.coinbaseOk.coinbaseForm] at hform)
    fun _ => ⟨height + 1, le_rfl, input, hinput, hwitness⟩
  refine ⟨hcons.perm ?_, fun o ho hmem => ?_⟩
  · grind
  · have hlast := keeps_of_moves hsteps.issue hfresh o (by
      obtain ⟨t, ht, hid⟩ := ho
      exact ⟨t, List.mem_append_right _ ht, hid⟩) hmem
    have hin : o ∈ mid.entries := by grind
    exact hlast.trans (hkeeps o ho hin)

end Provenance

section Chain

variable [Crypto]

/-- Those of these transactions with the same id are the same transaction. -/
def CollisionFree (txs : List Transaction) : Prop :=
  ∀ a ∈ txs, ∀ b ∈ txs, a.txid = b.txid → a = b

instance (txs : List Transaction) : Decidable (CollisionFree txs) :=
  inferInstanceAs (Decidable (∀ a ∈ txs, ∀ b ∈ txs, a.txid = b.txid → a = b))

theorem CollisionFree.mono {txs txs' : List Transaction} (h : CollisionFree txs')
    (hsub : ∀ tx ∈ txs, tx ∈ txs') : CollisionFree txs :=
  fun a ha b hb => h a (hsub a ha) b (hsub b hb)

def chainTransactions (chain : List Block) : List Transaction := chain.flatMap Block.transactions

omit [Crypto] in
theorem chainTransactions_snoc (chain : List Block) (block : Block) :
    chainTransactions (chain ++ [block]) = chainTransactions chain ++ block.transactions := by
  simp [chainTransactions]

theorem CollisionFree.of_subset {chain blocks : List Block}
    (h : CollisionFree (chainTransactions blocks)) (hsub : ∀ b ∈ chain, b ∈ blocks) :
    CollisionFree (chainTransactions chain) := by
  refine h.mono fun tx htx => ?_
  obtain ⟨b, hb, htx⟩ := List.mem_flatMap.mp htx
  exact List.mem_flatMap.mpr ⟨b, hsub b hb, htx⟩

theorem CollisionFree.injOn_snoc {chain : List Block} {block : Block}
    (h : CollisionFree (chainTransactions (chain ++ [block]))) :
    Set.InjOn Transaction.txid {t | t ∈ block.transactions ∨ t ∈ chainTransactions chain} := by
  rw [chainTransactions_snoc] at h
  intro a ha b hb
  exact h a (List.mem_append.mpr ha.symm) b (List.mem_append.mpr hb.symm)

variable {params : ConsensusParams} {verifier : SpendVerifier}

theorem replay_provenance {chain : List Block} {s : UtxoState}
    (h : replay params verifier chain = .ok s) (hmax : chain.length < 2 ^ 64)
    (hfree : CollisionFree (chainTransactions chain)) :
    Provenance (chainTransactions chain) chain.length s := by
  revert hmax hfree
  refine replay_inv (fun chain s => chain.length < 2 ^ 64 →
    CollisionFree (chainTransactions chain) →
    Provenance (chainTransactions chain) chain.length s) ?_ ?_ h
  · intro _ _
    refine ⟨?_, by simp [chainTransactions], by simp [chainTransactions], by simp [chainTransactions]⟩
    intro o ho
    simp [UtxoState.new] at ho
  · intro chain s block s' undo _ ih hconnect hmax hfree
    rw [List.length_append, List.length_singleton] at hmax ⊢
    obtain ⟨-, coinbase, normals, mid, fees, hsteps⟩ := connectBlock_ok hconnect
    have hprov := ih (by omega) (hfree.mono fun tx htx => by
      rw [chainTransactions_snoc]
      exact List.mem_append_left _ htx)
    rw [chainTransactions_snoc]
    exact (hprov.block hsteps hmax hfree.injOn_snoc).1.perm List.perm_append_comm

/-- A block connected to a replayed set leaves the entries that stay as they were. -/
theorem connect_agrees {chain : List Block} {s s' : UtxoState} {block : Block}
    {undo : BlockUndo} (h : replay params verifier chain = .ok s)
    (hmax : chain.length + 1 < 2 ^ 64)
    (hfree : CollisionFree (chainTransactions (chain ++ [block])))
    (hconnect : s.connectBlock block (chain.length + 1) params verifier = .ok (s', undo)) :
    undo = UtxoState.undoBetween s s' ∧
      ∀ o ∈ s.entries, o ∈ s'.entries → s'.entries[o]? = s.entries[o]? := by
  obtain ⟨rfl, coinbase, normals, mid, fees, hsteps⟩ := connectBlock_ok hconnect
  have hprov := replay_provenance h (by omega) (hfree.mono fun tx htx => by
    rw [chainTransactions_snoc]
    exact List.mem_append_left _ htx)
  have hkeeps := (hprov.block hsteps hmax hfree.injOn_snoc).2
  exact ⟨rfl, fun o ho ho' => hkeeps o (hprov.origin o ho) ho'⟩

/-- The undo record of a block connected to a replayed set takes it back exactly. -/
theorem disconnect_connected {chain : List Block} {s s' : UtxoState} {block : Block}
    {undo : BlockUndo} (h : replay params verifier chain = .ok s)
    (hmax : chain.length + 1 < 2 ^ 64)
    (hfree : CollisionFree (chainTransactions (chain ++ [block])))
    (hconnect : s.connectBlock block (chain.length + 1) params verifier = .ok (s', undo)) :
    s'.disconnectBlock undo = .ok s := by
  obtain ⟨rfl, hagree⟩ := connect_agrees h hmax hfree hconnect
  exact disconnect_undoBetween hagree

/-- A collision of outputs on a set with provenance can only be reported by the verifier. -/
theorem applyNormalTransaction_no_collision {txs : List Transaction} {height height' : ℕ}
    {s : UtxoState} {tx : Transaction} {o : OutPoint} (h : Provenance txs height s)
    (hinj : Set.InjOn Transaction.txid {t | t = tx ∨ t ∈ txs})
    (hok : validateNormalTransactionSkeleton tx = .ok ())
    (happly : s.applyNormalTransaction tx height' verifier = .error (.outputCollision o)) :
    ∃ k entry, verifier tx k entry = .error (.outputCollision o) := by
  obtain ⟨-, hne, -, hform⟩ := normalSkeleton_ok hok
  rcases UtxoState.applyNormalTransaction_error happly with hscan | ⟨h, -⟩ | h | ⟨hpresent, hcreate⟩
  · rcases UtxoState.scanInputs_error List.nodup_nil (by simp) rfl hscan with
      ⟨_, h⟩ | ⟨_, h⟩ | h | hv | ⟨h, -⟩
    · cases h
    · cases h
    · cases h
    · exact hv
    · cases h
  · cases h
  · cases h
  · rcases UtxoState.createOutputs_error hcreate with h | ⟨o', -, hid, hmem⟩
    · cases h
    · obtain ⟨t, ht, htid⟩ := h.origin o' hmem
      exact absurd (htid.trans hid) (h.fresh_normal hinj hform hne hpresent t ht)

theorem connectBlock_no_collision {chain : List Block} {s : UtxoState} {block : Block} {o : OutPoint}
    (h : replay params verifier chain = .ok s) (hmax : chain.length + 1 < 2 ^ 64)
    (hfree : CollisionFree (chainTransactions (chain ++ [block])))
    (hconnect : s.connectBlock block (chain.length + 1) params verifier =
      .error (.outputCollision o)) :
    ∃ tx ∈ block.transactions, ∃ k entry, verifier tx k entry = .error (.outputCollision o) := by
  have hprov := replay_provenance h (by omega) (hfree.mono fun tx htx => by
    rw [chainTransactions_snoc]
    exact List.mem_append_left _ htx)
  have hinj := hfree.injOn_snoc
  rcases connectBlock_error hconnect with ⟨_, h⟩ | h | ⟨coinbase, normals, hok, hfail⟩
  · cases h
  · cases h
  rw [hok.transactions] at hinj ⊢
  rcases hfail with ⟨done, tx, rest, mid, fees, rfl, hsteps, happly | ⟨h, -⟩⟩
    | ⟨mid, fees, hsteps, ⟨h, -⟩ | ⟨hcb, hcreate⟩⟩
  · obtain ⟨hmid, -⟩ := hprov.normalSteps hsteps
      (fun t ht => hok.normal t (List.mem_append_left _ ht)) (hinj.mono (by
        rintro t (ht | ht)
        · exact Or.inl (List.mem_cons_of_mem _ (List.mem_append_left _ ht))
        · exact Or.inr ht))
    obtain ⟨k, entry, hv⟩ := applyNormalTransaction_no_collision hmid (hinj.mono (by
      rintro t (rfl | ht)
      · exact Or.inl (by simp)
      · rcases List.mem_append.mp ht with ht | ht
        · exact Or.inl (List.mem_cons_of_mem _ (List.mem_append_left _ (List.mem_reverse.mp ht)))
        · exact Or.inr ht)) (hok.normal tx (by simp)) happly
    exact ⟨tx, by simp, k, entry, hv⟩
  · cases h
  · cases h
  · obtain ⟨hmid, -⟩ := hprov.normalSteps hsteps hok.normal (hinj.mono (by
      rintro t (ht | ht)
      · exact Or.inl (List.mem_cons_of_mem _ ht)
      · exact Or.inr ht))
    rcases UtxoState.createOutputs_error hcreate with h | ⟨o', -, hid, hmem⟩
    · cases h
    · obtain ⟨t, ht, htid⟩ := hmid.origin o' hmem
      refine absurd (htid.trans hid) (hmid.fresh_coinbase (hinj.mono ?_) hcb (by omega) hmax t ht)
      grind

/-- A block accepted on top of a chain is undone exactly by its undo record, the ids
of all transactions connected so far are distinct, and an output collision is never
found, in an accepted block or in a rejected one. -/
theorem connect_undo_exact {chain : List Block} {s : UtxoState} {block : Block}
    (h : replay params verifier chain = .ok s) (hmax : chain.length + 1 < 2 ^ 64)
    (hfree : CollisionFree (chainTransactions (chain ++ [block]))) :
    (∀ s' undo, s.connectBlock block (chain.length + 1) params verifier = .ok (s', undo) →
      s'.disconnectBlock undo = .ok s ∧
      ((chainTransactions (chain ++ [block])).map Transaction.txid).Nodup) ∧
    ∀ o, s.connectBlock block (chain.length + 1) params verifier = .error (.outputCollision o) →
      ∃ tx ∈ block.transactions, ∃ k entry, verifier tx k entry = .error (.outputCollision o) := by
  refine ⟨fun s' undo hconnect => ⟨disconnect_connected h hmax hfree hconnect, ?_⟩,
    fun o ho => connectBlock_no_collision h hmax hfree ho⟩
  have hnext : replay params verifier (chain ++ [block]) = .ok s' :=
    replay_snoc.mpr ⟨s, undo, h, hconnect⟩
  exact (replay_provenance hnext (by simpa using hmax) hfree).nodup

end Chain

namespace Sample

/-- A chain on which the founder's allocation has matured. -/
def aged : List Block := first :: (List.range 119).map fun n =>
  block 0 1600 (UInt64.ofNat n) [coinbase (n + 2) (n + 2)]

/-- A transaction that spends the founder's allocation. -/
def spending : Transaction where
  version := 1
  inputs := [{ previousTxid := 1, previousOutputIndex := 0, sequence := 0, witness := [] }]
  outputs := [⟨⟨5, by decide⟩, leBytes 8 122⟩]
  lockTime := 0

def spender : Block := block 0 1600 121 [coinbase 121 121, spending]

/-- The sample hash reads off the tag at the end of a transaction. -/
theorem domainHash_tag (domain : Bytes) {bytes : Bytes} {tag : ℕ} (htag : tag < 2 ^ 64)
    (h : leBytes 8 tag ++ leBytes 8 0 <:+ bytes) : domainHash domain bytes = BitVec.ofNat 256 tag := by
  obtain ⟨front, rfl⟩ := h
  have hdrop : (domain ++ (front ++ (leBytes 8 tag ++ leBytes 8 0))).drop
      ((domain ++ (front ++ (leBytes 8 tag ++ leBytes 8 0))).length - 16) =
        leBytes 8 tag ++ leBytes 8 0 := by
    rw [← List.append_assoc domain]
    exact List.drop_left' (by simp only [List.length_append, leBytes_length]; omega)
  have hread : readLE (leBytes 8 tag ++ leBytes 8 0) = tag := by
    rw [readLE_append, readLE_leBytes_of_lt htag, readLE_leBytes_of_lt (by decide), mul_zero, add_zero]
  simp only [domainHash, Crypto.blake3, hdrop, hread]

theorem txid_coinbase (height : ℕ) {tag : ℕ} (htag : tag < 2 ^ 64) :
    (coinbase height tag).txid = BitVec.ofNat 256 tag := by
  refine domainHash_tag _ htag ?_
  simp only [Transaction.encode, coinbase, List.flatMap_append, List.flatMap_singleton,
    TxOutput.encode, encodeItem, List.append_assoc]
  iterate 7 apply List.suffix_append_of_suffix
  exact List.suffix_rfl

/-- A block with nothing but its coinbase adds the coinbase's output to the set. -/
theorem connect_coinbase {s : UtxoState} (height : ℕ) {tag : ℕ} (nonce : UInt64)
    (hlow : 1 < height) (hhigh : height ≤ 120) (htag : tag < 2 ^ 64)
    (hnew : ⟨BitVec.ofNat 256 tag, 0⟩ ∉ s.entries) :
    ∃ undo, s.connectBlock (block 0 1600 nonce [coinbase height tag]) height params verifier =
      .ok (⟨s.entries.insert ⟨BitVec.ofNat 256 tag, 0⟩
        ⟨⟨⟨0, Nat.zero_le _⟩, leBytes 8 tag⟩, height, true⟩⟩, undo) := by
  have hne : height ≠ 0 := by omega
  have hne' : height ≠ 1 := by omega
  have hform : isCoinbaseForm (coinbase height tag) = true := rfl
  have houtputs : (coinbase height tag).outputs = [⟨⟨0, Nat.zero_le _⟩, leBytes 8 tag⟩] := by
    simp [coinbase, hne']
  have hsize : (coinbase height tag).encode.length = 72 := by
    simp [Transaction.encode, TxOutput.encode, TxInput.encode, encodeItem, writeVarint, coinbase,
      Hash256.asBytes, show height ≤ 252 by omega, hne']
  have hskeleton : validateNonGenesisBlockSkeleton (block 0 1600 nonce [coinbase height tag]) height =
      .ok () := by
    simp [validateNonGenesisBlockSkeleton, checkSizes, checkNormalTransactions, bind_eq_ok,
      ensure_eq_ok, block, Block.encode, BlockHeader.encode_length, hsize, writeVarint, rootOf,
      transactionRoot, reduceLevels, MAX_BLOCK_BYTES, MAX_TRANSACTION_BYTES, hform, hne]
  have hsubsidy : blockSubsidy height = .ok ⟨INITIAL_SUBSIDY_BASE_UNITS, by decide⟩ := by
    have hera : (height - 1) / HALVING_INTERVAL = 0 :=
      Nat.div_eq_of_lt (by unfold HALVING_INTERVAL; omega)
    simp only [blockSubsidy, subsidyUnits, hera, hne, if_false]
    rfl
  have hcoinbase : validateCoinbase (coinbase height tag) height ⟨0, Nat.zero_le _⟩ params =
      .ok () := by
    simp only [validateCoinbase, minerOutputs, houtputs, hsubsidy, hform, hne', if_false]
    simp [bind_eq_ok, ensure_eq_ok, hne, coinbase, sumOutputs, checkedAdd,
      INITIAL_SUBSIDY_BASE_UNITS]
  have hcreated : s.createOutputs (coinbase height tag) height true =
      .ok [(⟨BitVec.ofNat 256 tag, 0⟩, ⟨⟨⟨0, Nat.zero_le _⟩, leBytes 8 tag⟩, height, true⟩)] := by
    simp [UtxoState.createOutputs, houtputs, txid_coinbase height htag, hnew, ensure]
  simp only [UtxoState.connectBlock, hskeleton]
  simp [block, UtxoState.transactionPositions, UtxoState.applyTransactions, Amount.fromBaseUnits,
    hcoinbase, UtxoState.insertCoinbaseOutputs, hcreated]

/-- The set that the first `n + 1` blocks leave. -/
def coins : ℕ → UtxoState
  | 0 => ⟨(∅ : UtxoMap).insertMany [(⟨1, 0⟩, ⟨founderOutput, 1, true⟩),
      (⟨1, 1⟩, ⟨⟨⟨0, Nat.zero_le _⟩, leBytes 8 1⟩, 1, true⟩)]⟩
  | n + 1 => ⟨(coins n).entries.insert ⟨BitVec.ofNat 256 (n + 2), 0⟩
      ⟨⟨⟨0, Nat.zero_le _⟩, leBytes 8 (n + 2)⟩, n + 2, true⟩⟩

theorem txid_le_of_mem_coins {n : ℕ} {o : OutPoint} (h : o ∈ (coins n).entries) :
    o.txid.toNat ≤ n + 1 := by
  induction n with
  | zero =>
    have h : o = ⟨1, 0⟩ ∨ o = ⟨1, 1⟩ := by simpa [coins] using h
    rcases h with rfl | rfl <;> decide
  | succ n ih =>
    simp only [coins, Std.ExtTreeMap.mem_insert, Std.LawfulEqCmp.compare_eq_iff_eq] at h
    rcases h with rfl | h
    · exact (Nat.mod_le _ _).trans (by omega)
    · exact (ih h).trans (by omega)

theorem replay_coins {n : ℕ} (hn : n ≤ 119) :
    replay params verifier (first :: (List.range n).map fun n =>
      block 0 1600 (UInt64.ofNat n) [coinbase (n + 2) (n + 2)]) = .ok (coins n) := by
  induction n with
  | zero => decide +kernel
  | succ n ih =>
    have hnew : ⟨BitVec.ofNat 256 (n + 2), 0⟩ ∉ (coins n).entries := fun h => by
      have hle : (n + 2) % 2 ^ 256 ≤ n + 1 := by simpa using txid_le_of_mem_coins h
      omega
    obtain ⟨undo, hconnect⟩ :=
      connect_coinbase (n + 2) (UInt64.ofNat n) (by omega) (by omega) (by omega) hnew
    rw [List.range_succ, List.map_append, ← List.cons_append]
    refine replay_snoc.mpr ⟨coins n, undo, ih (by omega), ?_⟩
    simpa [coins] using hconnect

theorem nodup_chain_ids : ((chainTransactions (aged ++ [spender])).map Transaction.txid).Nodup := by
  have hchain : chainTransactions (aged ++ [spender]) =
      ((List.range 121).map fun n => coinbase (n + 1) (n + 1)) ++ [spending] := by
    decide +kernel
  have hlast : spending.txid = BitVec.ofNat 256 122 := by decide +kernel
  have hids : (chainTransactions (aged ++ [spender])).map Transaction.txid =
      (List.range 122).map fun n => BitVec.ofNat 256 (n + 1) := by
    rw [hchain, List.map_append, List.map_map, List.map_singleton, hlast,
      List.range_succ (n := 121), List.map_append, List.map_singleton, List.append_left_inj]
    refine List.map_congr_left fun n hn => txid_coinbase _ ?_
    rw [List.mem_range] at hn
    omega
  rw [hids]
  refine List.nodup_range.map_on fun m hm n hn h => ?_
  have h : (m + 1) % 2 ^ 256 = (n + 1) % 2 ^ 256 := congrArg BitVec.toNat h
  rw [List.mem_range] at hm hn
  omega

end Sample

open Sample in
/-- A block that spends an output and creates two. -/
theorem connect_undo_exact_sample : ∃ s s' undo, replay params verifier aged = .ok s ∧
    s.connectBlock spender 121 params verifier = .ok (s', undo) ∧
    undo.spent.map Prod.fst = [⟨1, 0⟩] ∧ undo.created = [⟨121, 0⟩, ⟨122, 0⟩] ∧
    s'.disconnectBlock undo = .ok s := by
  have hreplay : replay params verifier aged = .ok (coins 119) := replay_coins le_rfl
  have hrun : (((coins 119).connectBlock spender 121 params verifier).map fun r =>
      (r.2.spent.map Prod.fst, r.2.created)) = .ok ([⟨1, 0⟩], [⟨121, 0⟩, ⟨122, 0⟩]) := by
    decide +kernel
  obtain ⟨⟨s', undo⟩, hconnect, hundo⟩ := map_eq_ok.mp hrun
  obtain ⟨hspent, hcreated⟩ := Prod.mk.inj hundo
  have hlength : aged.length = 120 := by simp [aged]
  have hexact := (connect_undo_exact hreplay (by rw [hlength]; decide)
    fun t ht t' ht' => List.inj_on_of_nodup_map nodup_chain_ids ht ht').1
  rw [hlength] at hexact
  exact ⟨_, s', undo, hreplay, hconnect, hspent, hcreated, (hexact s' undo hconnect).1⟩

end Oregon
