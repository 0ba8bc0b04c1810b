import Oregon.Sanity.PoolState

/-! A candidate is validated on a copy of some coins of the chain, after its ancestors. At every
outpoint that was copied and that no replayed entry spends, the copy has the coin of the
pool, once the entry that makes it is replayed. So the fees are those of the pool. -/

namespace Oregon.Pool

open Lib Std

/-- The coins of the chain at some outpoints are copied, each once. -/
structure Copied (chain : UtxoState) (W : Set OutPoint) (seeds : Seeds) : Prop where
  nodup : (seeds.narrowEntries.map Prod.fst).Nodup
  seeded : ∀ o, o ∈ seeds.seeded ↔ o ∈ seeds.narrowEntries.map Prod.fst
  entries : ∀ e ∈ seeds.narrowEntries, chain.get e.1 = some e.2
  covers : ∀ o ∈ W, ∀ c, chain.get o = some c → o ∈ seeds.seeded

namespace Copied

variable {chain : UtxoState} {W : Set OutPoint} {seeds : Seeds}

theorem empty : Copied chain ∅ ⟨∅, []⟩ where
  nodup := List.nodup_nil
  seeded o := by simp
  entries e he := by cases he
  covers o ho := by cases ho

theorem skip (h : Copied chain W seeds) {o : OutPoint} (hnone : chain.get o = none) :
    Copied chain (insert o W) seeds where
  nodup := h.nodup
  seeded := h.seeded
  entries := h.entries
  covers a ha c hc := by
    rcases ha with rfl | ha
    · rw [hnone] at hc
      cases hc
    · exact h.covers a ha c hc

theorem add (h : Copied chain W seeds) {o : OutPoint} {c : UtxoEntry} (hc : chain.get o = some c) :
    Copied chain (insert o W) (seeds.add o c) := by
  by_cases ho : o ∈ seeds.seeded
  · rw [Seeds.add, if_pos ho]
    refine ⟨h.nodup, h.seeded, h.entries, fun a ha d hd => ?_⟩
    rcases ha with rfl | ha
    · exact ho
    · exact h.covers a ha d hd
  · rw [Seeds.add, if_neg ho]
    refine ⟨?_, fun a => ?_, fun e he => ?_, fun a ha d hd => ?_⟩
    · rw [h.seeded] at ho
      rw [List.map_append, List.nodup_append]
      refine ⟨h.nodup, List.nodup_singleton _, ?_⟩
      grind
    · rw [ExtTreeSet.mem_insert, Std.compare_eq_iff_eq, h.seeded, List.map_append, List.mem_append,
        List.map_singleton, List.mem_singleton, or_comm, eq_comm]
    · rcases List.mem_append.mp he with he | he
      · exact h.entries e he
      · simp_all
    · rw [ExtTreeSet.mem_insert]
      rcases ha with rfl | ha
      · exact .inl (by simp)
      · exact .inr (h.covers a ha d hd)

theorem mono (h : Copied chain W seeds) {W' : Set OutPoint}
    (hW : ∀ o ∈ W', ∀ c, chain.get o = some c → o ∈ W) : Copied chain W' seeds :=
  ⟨h.nodup, h.seeded, h.entries, fun o ho c hc => h.covers o (hW o ho c hc) c hc⟩

theorem inputs (h : Copied chain W seeds) (tx : Transaction) :
    Copied chain (W ∪ {o | o ∈ tx.inputs.map TxInput.outpoint}) (seedChainInputs chain seeds tx) := by
  rw [seedChainInputs]
  induction tx.inputs generalizing W seeds with
  | nil => simpa using h
  | cons input inputs ih =>
    rw [List.foldl_cons]
    refine Copied.mono (W := insert input.outpoint W ∪ _) (ih ?_) fun o ho c _ => ?_
    · cases hget : chain.get input.outpoint with
      | none => exact h.skip hget
      | some c => exact h.add hget
    · grind

theorem outputs (h : Copied chain W seeds) (txids : ExtTreeSet Hash256) :
    Copied chain (W ∪ {o | o.txid ∈ txids}) (seedOutputs chain txids seeds) := by
  have hall : ∀ l : List (OutPoint × UtxoEntry), (∀ e ∈ l, chain.get e.1 = some e.2) →
      ∀ W seeds, Copied chain W seeds →
        Copied chain (W ∪ {o | o.txid ∈ txids ∧ o ∈ l.map Prod.fst}) (l.foldl (fun seeds e =>
          if e.1.txid ∈ txids then seeds.add e.1 e.2 else seeds) seeds) := by
    intro l
    induction l with
    | nil => simp
    | cons e l ih =>
      intro hl W seeds h
      rw [List.foldl_cons]
      have hrest := fun a ha => hl a (List.mem_cons_of_mem _ ha)
      split_ifs with he
      · refine (ih hrest _ _ (h.add (hl e List.mem_cons_self))).mono fun o ho c _ => ?_
        grind
      · grind
  refine (hall chain.entries.toList (fun e he => ?_) W seeds h).mono fun o ho c hc => ?_
  · exact ExtTreeMap.mem_toList_iff_getElem?_eq_some.mp he
  · rcases ho with ho | ho
    · exact .inl ho
    · exact .inr ⟨ho, List.mem_map.mpr
        ⟨(o, c), ExtTreeMap.mem_toList_iff_getElem?_eq_some.mpr hc, rfl⟩⟩

theorem ancestors {entries : Entries} {l : List Hash256} (hl : ∀ a ∈ l, a ∈ entries)
    (h : Copied chain W seeds) : ∃ seeds', l.foldlM (fun seeds ancestor => do
        let entry ← orElse entries[ancestor]? violation
        pure (seedChainInputs chain seeds entry.transaction)) seeds = .ok seeds' ∧
      Copied chain (W ∪ {o | ∃ a ∈ l, ∃ e, entries[a]? = some e ∧ o ∈ e.claims}) seeds' := by
  induction l generalizing W seeds with
  | nil => exact ⟨seeds, rfl, by simpa using h⟩
  | cons a l ih =>
    obtain ⟨e, he⟩ := (mem_iff_lookup _ _).mp (hl a List.mem_cons_self)
    obtain ⟨seeds', hok, hcopied⟩ := ih (fun b hb => hl b (List.mem_cons_of_mem _ hb))
      (h.inputs e.transaction)
    refine ⟨seeds', ?_, hcopied.mono fun o ho c _ => ?_⟩
    · simp_all
    · rcases ho with ho | ⟨b, hb, e', he', ho⟩
      · exact .inl (.inl ho)
      · rcases List.mem_cons.mp hb with rfl | hb
        · obtain rfl := Option.some.inj (he.symm.trans he')
          exact .inl (.inr ho)
        · exact .inr ⟨b, hb, e', he', ho⟩

theorem state (h : Copied chain W seeds) :
    ∃ s, UtxoState.tryFromEntries seeds.narrowEntries = .ok s ∧ ∀ o ∈ W, s.get o = chain.get o := by
  refine ⟨⟨(∅ : UtxoMap).insertMany seeds.narrowEntries⟩, ?_, fun o ho => ?_⟩
  · rw [UtxoState.tryFromEntries, insertEach_ok _ h.nodup fun e _ => ExtTreeMap.not_mem_empty]
    rfl
  · rw [UtxoState.get]
    cases hget : chain.get o with
    | some c =>
      obtain ⟨⟨_, d⟩, hmem, rfl⟩ := List.mem_map.mp ((h.seeded o).mp (h.covers o ho c hget))
      have hsame := h.entries _ hmem
      rw [lookup_insertMany_of_mem h.nodup hmem, ← hget, hsame]
    | none =>
      rw [lookup_insertMany_of_notMem, ExtTreeMap.getElem?_empty]
      intro hmem
      obtain ⟨e, he, rfl⟩ := List.mem_map.mp hmem
      rw [h.entries e he] at hget
      cases hget

end Copied

section Replay

variable {chain N N' : UtxoState} {entries : Entries} {height : ℕ} {W : Set OutPoint}
  {l : List Hash256} {o : OutPoint} {tx : Transaction} {verifier : SpendVerifier} {fee : ℕ}

/-- None of some entries spends this. -/
def Free (entries : Entries) (l : List Hash256) (o : OutPoint) : Prop :=
  ∀ a ∈ l, ∀ e, entries[a]? = some e → o ∉ e.claims

/-- The coins after some entries were replayed on the copy. -/
def Replayed (chain : UtxoState) (entries : Entries) (height : ℕ) (W : Set OutPoint)
    (l : List Hash256) (N : UtxoState) : Prop :=
  ∀ o ∈ W, Free entries l o → N.get o =
    if chain.get o = none ∧ o.txid ∉ l then none else coins chain entries height o

theorem Replayed.nil (h : ∀ o ∈ W, N.get o = chain.get o) :
    Replayed chain entries height W [] N := by
  intro o ho _
  rw [h o ho]
  cases hget : chain.get o with
  | none => simp
  | some c => simp [coins_of_chain hget]

namespace Replayed

variable (h : Replayed chain entries height W l N)

include h

theorem coins_eq {c : UtxoEntry} (ho : o ∈ W) (hfree : Free entries l o) (hc : N.get o = some c) :
    coins chain entries height o = some c := by
  rw [h o ho hfree] at hc
  split_ifs at hc
  exact hc

theorem spends (hW : ∀ o ∈ tx.inputs.map TxInput.outpoint, o ∈ W ∧ Free entries l o)
    (hspends : Spends N.get tx height verifier fee) :
    Spends (coins chain entries height) tx height verifier fee := by
  refine hspends.congr fun o ho => ?_
  obtain ⟨c, hc⟩ := hspends.present ho
  rw [hc, h.coins_eq (hW o ho).1 (hW o ho).2 hc]

variable [Crypto]

/-- One entry more. Its outputs were new on the copy, so they are not on the chain. -/
theorem snoc {a : Hash256} {e : MempoolEntry} (he : entries[a]? = some e)
    (hhash : e.transaction.txid = a) (ha : a ∉ l) (hW : ∀ o : OutPoint, o.txid = a → o ∈ W)
    (happly : N.applyNormalTransaction e.transaction height verifier = .ok (N', fee)) :
    Replayed chain entries height W (l ++ [a]) N' := by
  obtain ⟨-, hlen, hnew, rfl⟩ := UtxoState.applyNormalTransaction_eq_ok.mp happly
  rw [createdBy_new_iff hlen] at hnew
  intro o ho hfree
  have hfreeL : Free entries l o := fun b hb => hfree b (List.mem_append_left _ hb)
  have hclaims : o ∉ e.transaction.inputs.map TxInput.outpoint :=
    hfree a (List.mem_append_right _ List.mem_cons_self) e he
  rw [UtxoState.get_moved hlen, if_neg hclaims, h o ho hfreeL, hhash]
  by_cases hcreated : o.txid = a ∧ o.index.toNat < e.transaction.outputs.length
  · obtain ⟨rfl, hlt⟩ := hcreated
    have hnone : N.get o = none := hnew o hhash.symm hlt
    rw [h o ho hfreeL] at hnone
    have hchain : chain.get o = none := by
      cases hget : chain.get o with
      | none => rfl
      | some c => simp [hget, coins_of_chain hget] at hnone
    rw [if_pos ⟨rfl, hlt⟩, if_neg (by simp), coins_of_none hchain, he]
    rfl
  · rw [if_neg hcreated]
    by_cases htxid : o.txid = a
    · subst htxid
      have hproduced : producedAt e.transaction height o = none := by
        rw [Option.eq_none_iff_forall_ne_some]
        intro c hc
        exact hcreated ⟨rfl, producedAt_eq_some_iff.mp ⟨c, hc⟩⟩
      cases hget : chain.get o with
      | some c => simp
      | none => simp [ha, coins_of_none hget, he, hproduced]
    · simp [htxid]

end Replayed

end Replay

/-- An error of the coins. -/
def IsUtxo (halt : Halt) : Prop := ∃ e, halt = .error (.utxo e)

section Validate

variable [Crypto] {chain N : UtxoState} {pool : Mempool} {verifier : SpendVerifier} {W : Set OutPoint}
  {l done rest : List Hash256} {tx : Transaction}

/-- Entries that can be replayed where the copy was made. -/
structure Scope (pool : Mempool) (W : Set OutPoint) (l : List Hash256) : Prop where
  mem : ∀ a ∈ l, a ∈ pool.entries
  nodup : l.Nodup
  claims : ∀ a ∈ l, ∀ e, pool.entries[a]? = some e → ∀ o ∈ e.claims, o ∈ W
  outputs : ∀ o : OutPoint, o.txid ∈ l → o ∈ W

namespace Sound

variable (hs : Sound chain pool)

include hs

theorem free {a : Hash256} {e : MempoolEntry} (he : pool.entries[a]? = some e) (ha : a ∉ l)
    {o : OutPoint} (ho : o ∈ e.claims) : Free pool.entries l o := by
  intro b hb e' he' ho'
  exact ha (hs.claim_unique he he' ho ho' ▸ hb)

variable (verifier) in
theorem replay_step {a : Hash256} (hscope : Scope pool W (done ++ a :: rest))
    (hN : Replayed chain pool.entries (pool.base.tipHeight + 1) W done N) :
    (∀ N', replayAncestor pool.entries (pool.base.tipHeight + 1) verifier N a = .ok N' →
      Replayed chain pool.entries (pool.base.tipHeight + 1) W (done ++ [a]) N') ∧
    FailsIn IsUtxo (replayAncestor pool.entries (pool.base.tipHeight + 1) verifier N a) := by
  have hmem : a ∈ done ++ a :: rest := by simp
  obtain ⟨e, he⟩ := (mem_iff_lookup _ _).mp (hscope.mem a hmem)
  have hsound := hs.entry a e he
  have hnew : a ∉ done := fun ha =>
    List.disjoint_of_nodup_append hscope.nodup ha List.mem_cons_self
  rw [replayAncestor, he, orElse_some, ok_bind]
  cases happly : N.applyNormalTransaction e.transaction (pool.base.tipHeight + 1) verifier with
  | error u => exact ⟨fun N' h => by simp at h, FailsIn.error ⟨u, rfl⟩⟩
  | ok r =>
    obtain ⟨N₁, fee⟩ := r
    obtain ⟨hspends, -⟩ := UtxoState.applyNormalTransaction_eq_ok.mp happly
    have hfee : fee = e.fee := by
      obtain ⟨verifier', hadmitted⟩ := hsound.spends
      have hreplayed := hN.spends (fun o ho => ⟨hscope.claims a hmem e he o ho,
        hs.free he hnew ho⟩) hspends
      exact hreplayed.fee_unique hadmitted
    rw [mapError_ok, ok_bind]
    dsimp only
    rw [ensure_ok hfee, ok_bind]
    refine ⟨fun N' hN' => ?_, FailsIn.ok _⟩
    rw [← pure_eq_ok.mp hN']
    exact hN.snoc he hsound.hash_eq hnew
      (fun o ho => hscope.outputs o (ho ▸ hmem)) happly

variable (verifier) in
theorem replay_run (hscope : Scope pool W (done ++ rest))
    (hN : Replayed chain pool.entries (pool.base.tipHeight + 1) W done N) :
    (∀ N', rest.foldlM (replayAncestor pool.entries (pool.base.tipHeight + 1) verifier) N = .ok N' →
      Replayed chain pool.entries (pool.base.tipHeight + 1) W (done ++ rest) N') ∧
    FailsIn IsUtxo (rest.foldlM (replayAncestor pool.entries (pool.base.tipHeight + 1) verifier) N) := by
  induction rest generalizing done N with
  | nil =>
    refine ⟨fun N' h => ?_, FailsIn.ok _⟩
    rw [List.append_nil, ← pure_eq_ok.mp h]
    exact hN
  | cons a rest ih =>
    obtain ⟨hok, hfails⟩ := hs.replay_step verifier hscope hN
    rw [List.foldlM_cons]
    cases hstep : replayAncestor pool.entries (pool.base.tipHeight + 1) verifier N a with
    | error e => exact ⟨fun N' h => by simp [error_bind] at h, FailsIn.error (hfails e hstep)⟩
    | ok N₁ =>
      rw [List.append_cons] at hscope ⊢
      exact ih hscope (hok N₁ hstep)

variable {ancestors : ExtTreeSet Hash256}

omit hs in
variable (verifier tx) in
/-- The copy is made, the ancestors are replayed on it, and the candidate after them. -/
theorem validateCandidate_eq (hmem : ∀ a ∈ l, a ∈ pool.entries) (hnodup : l.Nodup)
    (hancestors : ∀ a ∈ l, a ∈ ancestors) :
    ∃ W N, Scope pool W l ∧ (∀ o ∈ tx.inputs.map TxInput.outpoint, o ∈ W) ∧
      (∀ o : OutPoint, o.txid = tx.txid → o ∈ W) ∧
      Replayed chain pool.entries (pool.base.tipHeight + 1) W [] N ∧
      validateCandidate pool.entries ancestors l tx (pool.base.tipHeight + 1) chain verifier = (do
        let N ← l.foldlM (replayAncestor pool.entries (pool.base.tipHeight + 1) verifier) N
        let r ← (N.applyNormalTransaction tx (pool.base.tipHeight + 1) verifier).mapError
          fun e => .error (.utxo e)
        pure r.2) := by
  obtain ⟨seeds, hseeds, hcopied⟩ := (Copied.empty : Copied chain _ _).ancestors hmem
  have hall := (hcopied.inputs tx).outputs (ancestors.insert tx.txid)
  obtain ⟨N, hN, hget⟩ := hall.state
  refine ⟨_, N, ⟨hmem, hnodup, fun a ha e he o ho => ?_, fun o ho => ?_⟩, fun o ho => ?_,
    fun o ho => ?_, Replayed.nil hget, ?_⟩
  · exact .inl (.inl (.inr ⟨a, ha, e, he, ho⟩))
  · exact .inr (ExtTreeSet.mem_insert.mpr (.inr (hancestors _ ho)))
  · exact .inl (.inr ho)
  · exact .inr (ExtTreeSet.mem_insert.mpr (.inl (by simp [ho])))
  · grind [validateCandidate, ok_bind, mapError_ok]

variable (verifier) in
/-- Validation gives the fee that the candidate leaves of the coins of the pool, or an error of
the coins. -/
theorem validateCandidate_spec (hmem : ∀ a ∈ l, a ∈ pool.entries) (hnodup : l.Nodup)
    (hancestors : ∀ a ∈ l, a ∈ ancestors)
    (hfree : ∀ o ∈ tx.inputs.map TxInput.outpoint, Free pool.entries l o) :
    (∀ fee, validateCandidate pool.entries ancestors l tx (pool.base.tipHeight + 1) chain verifier =
      .ok fee → tx.outputs.length ≤ 2 ^ 32 ∧ Spends (coins chain pool.entries
        (pool.base.tipHeight + 1)) tx (pool.base.tipHeight + 1) verifier fee) ∧
    FailsIn IsUtxo (validateCandidate pool.entries ancestors l tx (pool.base.tipHeight + 1) chain
      verifier) := by
  obtain ⟨W, N, hscope, hinputs, -, hN, heq⟩ :=
    validateCandidate_eq verifier tx hmem hnodup hancestors
  obtain ⟨hreplayed, hfails⟩ := hs.replay_run verifier hscope hN
  rw [heq]
  constructor
  · intro fee hfee
    obtain ⟨N', hN', hrest⟩ := bind_eq_ok.mp hfee
    obtain ⟨⟨N₁, fee'⟩, happly, hpure⟩ := bind_eq_ok.mp hrest
    obtain rfl := pure_eq_ok.mp hpure
    obtain ⟨hspends, hlen, -⟩ := UtxoState.applyNormalTransaction_eq_ok.mp (mapError_eq_ok.mp happly)
    exact ⟨hlen, (hreplayed N' hN').spends (fun o ho => ⟨hinputs o ho, hfree o ho⟩) hspends⟩
  · refine FailsIn.bind hfails fun N' => FailsIn.bind (FailsIn.mapError fun e => ⟨e, rfl⟩)
      fun r => FailsIn.ok _

end Sound

end Validate

end Oregon.Pool
