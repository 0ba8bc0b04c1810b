import Oregon.Sanity.PoolReplay

/-! What is prepared for a transaction that asks for admission: its entry, with the links and the
fee that it will have, and its ancestors. A transaction that is not refused at sight is
only refused for reasons that a rebuild passes over. -/

namespace Oregon.Pool

open Lib Std Relation

/-- A refusal that a rebuild passes over. -/
def Passed (halt : Halt) : Prop := ∃ e, halt = .error e ∧ isFilterableRebuildError e = true

/-- A refusal that says nothing about the pool. -/
def Refusal (halt : Halt) : Prop := ∃ e, halt = .error e ∧ e ≠ .invariantViolation ∧ e ≠ .dependencyCycle

theorem Passed.refusal {halt : Halt} (h : Passed halt) : Refusal halt := by
  obtain ⟨e, rfl, he⟩ := h
  refine ⟨e, rfl, ?_, ?_⟩
  · rintro rfl
    cases he
  · rintro rfl
    cases he

theorem IsUtxo.passed {halt : Halt} (h : IsUtxo halt) : Passed halt := by
  obtain ⟨e, rfl⟩ := h
  exact ⟨_, rfl, rfl⟩

theorem checkConflicts_eq_ok {spenders : ExtTreeMap OutPoint Hash256} {claims : List OutPoint} :
    checkConflicts spenders claims = .ok () ↔ ∀ o ∈ claims, spenders[o]? = none := by
  rw [checkConflicts, forM_eq_ok]
  refine forall₂_congr fun o _ => ?_
  cases spenders[o]? <;> simp [pure, Except.pure]

theorem checkConflicts_fails (spenders : ExtTreeMap OutPoint Hash256) (claims : List OutPoint) :
    FailsIn Refusal (checkConflicts spenders claims) := by
  intro e he
  obtain ⟨o, -, ho⟩ := forM_eq_error he
  cases hget : spenders[o]? with
  | none => simp [hget, pure, Except.pure] at ho
  | some txid =>
    rw [hget] at ho
    exact throw_eq_error.mp ho ▸ ⟨_, rfl, by simp, by simp⟩

section Parents

variable {chain : UtxoState} {entries : Entries} {o : OutPoint} {direct : ExtTreeSet Hash256}

/-- An outpoint that is on the chain, or an output of an entry. -/
def Supplied (chain : UtxoState) (entries : Entries) (o : OutPoint) : Prop :=
  chain.get o = none → ∃ e, entries[o.txid]? = some e ∧
    o.index.toNat < e.transaction.outputs.length

theorem addParent_eq (hkeys : ∀ (a : Hash256) (e : MempoolEntry), entries[a]? = some e → e.txid = a)
    (h : Supplied chain entries o) : addParent entries chain direct o =
      .ok (if chain.get o = none then direct.insert o.txid else direct) := by
  rw [addParent]
  cases hget : chain.get o with
  | some c => simp [pure, Except.pure]
  | none =>
    obtain ⟨e, he, hlt⟩ := h hget
    simp [he, ensure_ok hlt, ok_bind, hkeys _ _ he, pure, Except.pure]

theorem addParent_error (h : ¬ Supplied chain entries o) (direct : ExtTreeSet Hash256) :
    ∃ halt, addParent entries chain direct o = .error halt ∧ Passed halt := by
  rw [Supplied, Classical.not_imp] at h
  obtain ⟨hnone, hnot⟩ := h
  rw [addParent, hnone]
  cases he : entries[o.txid]? with
  | none => exact ⟨_, rfl, _, rfl, rfl⟩
  | some e =>
    have hge : ¬ o.index.toNat < e.transaction.outputs.length := fun hlt => hnot ⟨e, he, hlt⟩
    refine ⟨.error (.invalidParentOutput o), ?_, _, rfl, rfl⟩
    simp [ensure_error hge, ok_bind]

variable (chain) in
theorem addParents_spec
    (hkeys : ∀ (a : Hash256) (e : MempoolEntry), entries[a]? = some e → e.txid = a)
    (claims : List OutPoint) (direct : ExtTreeSet Hash256) :
    ((∀ o ∈ claims, Supplied chain entries o) ∧
      ∃ r, claims.foldlM (addParent entries chain) direct = .ok r ∧
        ∀ p, p ∈ r ↔ p ∈ direct ∨ ∃ o ∈ claims, chain.get o = none ∧ o.txid = p) ∨
    (¬ (∀ o ∈ claims, Supplied chain entries o) ∧
      ∃ halt, claims.foldlM (addParent entries chain) direct = .error halt ∧ Passed halt) := by
  induction claims generalizing direct with
  | nil => exact .inl ⟨by simp, direct, rfl, by simp⟩
  | cons o claims ih =>
    rw [List.foldlM_cons, List.forall_mem_cons]
    by_cases ho : Supplied chain entries o
    · rw [addParent_eq hkeys ho, ok_bind]
      rcases ih (if chain.get o = none then direct.insert o.txid else direct) with
        ⟨hall, r, hr, hmem⟩ | ⟨hall, hfails⟩
      · grind
      · exact .inr ⟨fun h => hall h.2, hfails⟩
    · obtain ⟨halt, herror, hpassed⟩ := addParent_error ho direct
      simp_all

end Parents

section Prepare

variable [Crypto] {chain : UtxoState} {pool : Mempool} {tx : Transaction} {base : ChainBase}
  {verifier : SpendVerifier} {direct : ExtTreeSet Hash256}

/-- What a transaction must be before its inputs are looked for. -/
structure Eligible (pool : Mempool) (tx : Transaction) (base : ChainBase) : Prop where
  base_eq : base = pool.base
  height_lt : base.tipHeight + 1 < 2 ^ 64
  skeleton : validateNormalTransactionSkeleton tx = .ok ()
  new : tx.txid ∉ pool.entries
  unspent : ∀ o ∈ tx.inputs.map TxInput.outpoint, pool.spenders[o]? = none

/-- What is prepared for an admission. -/
structure Candidate (chain : UtxoState) (pool : Mempool) (verifier : SpendVerifier)
    (tx : Transaction) (c : PreparedCandidate) : Prop where
  eligible : Eligible pool tx pool.base
  transaction_eq : c.entry.transaction = tx
  txid_eq : c.entry.txid = tx.txid
  bytes_eq : c.entry.encodedBytes = tx.encode.length
  children_eq : c.entry.children = ∅
  claims_eq : c.spendClaims = tx.inputs.map TxInput.outpoint
  parents : ∀ p, p ∈ c.entry.parents ↔
    ∃ o ∈ tx.inputs.map TxInput.outpoint, chain.get o = none ∧ o.txid = p
  parents_mem : ∀ p ∈ c.entry.parents, p ∈ pool.entries
  ancestors : ∀ a, a ∈ c.ancestors ↔ ∃ p ∈ c.entry.parents, ReflTransGen (ParentOf pool.entries) p a
  ancestors_le : c.ancestors.size ≤ pool.config.maxAncestors
  descendants_lt : ∀ a ∈ c.ancestors,
    (descendants pool.entries a).ncard + 1 ≤ pool.config.maxDescendants
  outputs_le : tx.outputs.length ≤ 2 ^ 32
  spends : Spends (coins chain pool.entries (pool.base.tipHeight + 1)) tx
    (pool.base.tipHeight + 1) verifier c.entry.fee

/-- The rest of a preparation, once the direct parents are known. -/
def linkCandidate (pool : Mempool) (tx : Transaction) (chain : UtxoState)
    (verifier : SpendVerifier) (direct : ExtTreeSet Hash256) : Except Halt AdmissionPlan := do
  let ancestors ← ancestorClosure pool.entries direct
  ensure (ancestors.size ≤ pool.config.maxAncestors) (.error .tooManyAncestors)
  checkDescendants pool ancestors
  let fullOrder ← topologicalOrder pool.entries
  let replayOrder := fullOrder.filter fun ancestor => ancestor ∈ ancestors
  ensure (replayOrder.length = ancestors.size) violation
  let fee ← validateCandidate pool.entries ancestors replayOrder tx (pool.base.tipHeight + 1) chain
    verifier
  pure { candidate := { entry := { transaction := tx, txid := tx.txid, fee,
                                   encodedBytes := tx.encode.length, parents := direct,
                                   children := ∅ },
                        spendClaims := tx.inputs.map TxInput.outpoint, ancestors },
         remove := ∅ }

theorem prepareAdmission_eq (h : Eligible pool tx base) :
    prepareAdmission pool tx base chain verifier =
      (tx.inputs.map TxInput.outpoint).foldlM (addParent pool.entries chain) ∅ >>=
        linkCandidate pool tx chain verifier := by
  have hheight : checkedAdd base.tipHeight 1 = some (base.tipHeight + 1) :=
    checkedAdd_eq_some.mpr ⟨rfl, h.height_lt⟩
  have hnew := h.new
  rw [prepareAdmission, ensure_ok h.base_eq, ok_bind, hheight, orElse_some, ok_bind]
  dsimp only
  rw [h.skeleton, mapError_ok, ok_bind, ensure_ok hnew, ok_bind,
    checkConflicts_eq_ok.mpr h.unspent, ok_bind, h.base_eq]
  rfl

theorem linkCandidate_bytes {plan : AdmissionPlan}
    (h : linkCandidate pool tx chain verifier direct = .ok plan) :
    plan.candidate.entry.encodedBytes = tx.encode.length := by
  simp only [linkCandidate, bind_eq_ok, pure_eq_ok] at h
  grind

variable (chain verifier) in
theorem prepareAdmission_refused (h : ¬ Eligible pool tx base) :
    ∃ halt, prepareAdmission pool tx base chain verifier = .error halt ∧ Refusal halt := by
  rw [prepareAdmission]
  by_cases hbase : base = pool.base
  · rw [ensure_ok hbase, ok_bind]
    by_cases hheight : base.tipHeight + 1 < 2 ^ 64
    · rw [checkedAdd_eq_some.mpr ⟨rfl, hheight⟩, orElse_some, ok_bind]
      dsimp only
      cases hskeleton : validateNormalTransactionSkeleton tx with
      | error e => exact ⟨_, rfl, _, rfl, by simp, by simp⟩
      | ok u =>
        by_cases hnew : tx.txid ∉ pool.entries
        · rw [ensure_ok hnew, ok_bind]
          cases hconflicts : checkConflicts pool.spenders (tx.inputs.map TxInput.outpoint) with
          | error e => exact ⟨e, rfl, checkConflicts_fails _ _ e hconflicts⟩
          | ok u =>
            exact absurd ⟨hbase, hheight, hskeleton, hnew, checkConflicts_eq_ok.mp hconflicts⟩ h
        · rw [ensure_error hnew, error_bind]
          exact ⟨_, rfl, _, rfl, by simp, by simp⟩
    · rw [checkedAdd_eq_none.mpr (Nat.not_lt.mp hheight), orElse_none, error_bind]
      exact ⟨_, rfl, _, rfl, by simp, by simp⟩
  · rw [ensure_error hbase, error_bind]
    exact ⟨_, rfl, _, rfl, by simp, by simp⟩

theorem prepareAdmission_eligible {plan : AdmissionPlan}
    (h : prepareAdmission pool tx base chain verifier = .ok plan) : Eligible pool tx base := by
  by_contra hnot
  obtain ⟨halt, herror, -⟩ := prepareAdmission_refused chain verifier hnot
  rw [herror] at h
  cases h

theorem prepareAdmission_bytes {plan : AdmissionPlan}
    (h : prepareAdmission pool tx base chain verifier = .ok plan) :
    plan.candidate.entry.encodedBytes = tx.encode.length := by
  grind [prepareAdmission_eq, prepareAdmission_eligible, bind_eq_ok, linkCandidate_bytes]

namespace Sound

variable (hs : Sound chain pool)

include hs

theorem keys (a : Hash256) (e : MempoolEntry) (he : pool.entries[a]? = some e) : e.txid = a :=
  (hs.entry a e he).txid_eq

/-- The direct parents are entries, and are found when all inputs are supplied. -/
theorem directParents_spec (claims : List OutPoint) :
    ((∀ o ∈ claims, Supplied chain pool.entries o) ∧
      ∃ direct, claims.foldlM (addParent pool.entries chain) ∅ = .ok direct ∧
        (∀ p, p ∈ direct ↔ ∃ o ∈ claims, chain.get o = none ∧ o.txid = p) ∧
        ∀ p ∈ direct, p ∈ pool.entries) ∨
    (¬ (∀ o ∈ claims, Supplied chain pool.entries o) ∧
      ∃ halt, claims.foldlM (addParent pool.entries chain) ∅ = .error halt ∧ Passed halt) := by
  rcases addParents_spec chain hs.keys claims ∅ with ⟨hsupplied, direct, hok, hiff⟩ | hfails
  · have hparents : ∀ p, p ∈ direct ↔ ∃ o ∈ claims, chain.get o = none ∧ o.txid = p := by
      intro p
      rw [hiff]
      simp
    refine .inl ⟨hsupplied, direct, hok, hparents, fun p hp => ?_⟩
    obtain ⟨o, ho, hnone, rfl⟩ := (hparents p).mp hp
    obtain ⟨e, he, -⟩ := hsupplied o ho hnone
    exact (mem_iff_lookup _ _).mpr ⟨e, he⟩
  · exact .inr hfails

theorem checkDescendants_spec (hroom : pool.entries.size + 1 < 2 ^ 64)
    {ancestors : ExtTreeSet Hash256} (hmem : ∀ a ∈ ancestors, a ∈ pool.entries) :
    (checkDescendants pool ancestors = .ok () ↔ ∀ a ∈ ancestors,
      (descendants pool.entries a).ncard + 1 ≤ pool.config.maxDescendants) ∧
    FailsIn Passed (checkDescendants pool ancestors) := by
  have hone : ∀ a ∈ ancestors.toList, (do
      let descendants ← descendantClosure pool.entries a
      let withCandidate ← orElse (checkedAdd descendants.size 1) violation
      ensure (withCandidate ≤ pool.config.maxDescendants) (.error .tooManyDescendants)) =
      ensure ((descendants pool.entries a).ncard + 1 ≤ pool.config.maxDescendants)
        (.error .tooManyDescendants) := by
    intro a ha
    obtain ⟨c, hc, hiff⟩ := hs.linked.descendantClosure_ok (hmem a (ExtTreeSet.mem_toList.mp ha))
    have hsize : c.size ≤ pool.entries.size := Graph.size_le_of_subset fun k hk =>
      hs.linked.descendant_mem ((hiff k).mp hk)
    rw [hc, ok_bind, checkedAdd_eq_some.mpr ⟨rfl, by omega⟩, orElse_some, ok_bind,
      Graph.ncard_eq_size hiff]
  rw [checkDescendants]
  constructor
  · rw [forM_eq_ok]
    simp_all
  · intro e he
    obtain ⟨a, ha, herror⟩ := forM_eq_error he
    rw [hone a ha, ensure_eq_error] at herror
    exact herror.2 ▸ ⟨_, rfl, rfl⟩

variable (tx verifier) in
theorem linkCandidate_eq (hdirect : ∀ p ∈ direct, p ∈ pool.entries) :
    ∃ (ancestors : ExtTreeSet Hash256) (order : List Hash256),
      (∀ a, a ∈ ancestors ↔ ∃ p ∈ direct, ReflTransGen (ParentOf pool.entries) p a) ∧
      (∀ a ∈ ancestors, a ∈ pool.entries) ∧ order.Nodup ∧ (∀ a, a ∈ order ↔ a ∈ ancestors) ∧
      (order.Pairwise fun a b => ¬ ParentOf pool.entries a b) ∧
      linkCandidate pool tx chain verifier direct = (do
        ensure (ancestors.size ≤ pool.config.maxAncestors) (.error .tooManyAncestors)
        checkDescendants pool ancestors
        let fee ← validateCandidate pool.entries ancestors order tx (pool.base.tipHeight + 1) chain
          verifier
        pure { candidate := { entry := { transaction := tx, txid := tx.txid, fee,
                                         encodedBytes := tx.encode.length, parents := direct,
                                         children := ∅ },
                              spendClaims := tx.inputs.map TxInput.outpoint, ancestors },
               remove := ∅ }) := by
  obtain ⟨ancestors, hclosure, hmem, hiff⟩ := hs.linked.ancestorClosure_ok hdirect
  obtain ⟨order, horder, hnodup, hall, hordered⟩ := hs.linked.topologicalOrder_ok
  refine ⟨ancestors, order.filter fun a => a ∈ ancestors, hiff, hmem, hnodup.filter _, fun a => ?_,
    hordered.filter _, ?_⟩
  · grind
  · rw [linkCandidate, hclosure, ok_bind, horder]
    simp only [ok_bind]
    rw [ensure_ok (Linked.order_filter hnodup hall hmem)]
    rfl

theorem free_of_unspent {l : List Hash256} {o : OutPoint} (h : pool.spenders[o]? = none) :
    Free pool.entries l o := by
  intro a _ e he ho
  rw [(hs.spenders o a).mpr ⟨e, he, ho⟩] at h
  cases h

variable (verifier) in
/-- An eligible transaction becomes a candidate, or is refused for what a rebuild passes over. -/
theorem prepareAdmission_spec (hroom : pool.entries.size + 1 < 2 ^ 64)
    (h : Eligible pool tx base) :
    (∀ plan, prepareAdmission pool tx base chain verifier = .ok plan →
      plan.remove = ∅ ∧ Candidate chain pool verifier tx plan.candidate) ∧
    FailsIn Passed (prepareAdmission pool tx base chain verifier) := by
  rw [prepareAdmission_eq h]
  rcases hs.directParents_spec (tx.inputs.map TxInput.outpoint) with
    ⟨-, direct, hok, hparents, hdirect⟩ | ⟨-, halt, herror, hpassed⟩
  · rw [hok, ok_bind]
    obtain ⟨ancestors, order, hancestors, hmem, hnodup, horder, -, heq⟩ :=
      hs.linkCandidate_eq tx verifier hdirect
    obtain ⟨hchecked, hfails⟩ := hs.checkDescendants_spec hroom hmem
    obtain ⟨hvalid, hinvalid⟩ := hs.validateCandidate_spec verifier (fun a ha => hmem a ((horder a).mp ha)) hnodup (fun a ha => (horder a).mp ha)
      fun o ho => hs.free_of_unspent (h.unspent o ho)
    rw [heq]
    constructor
    · intro plan hplan
      simp only [bind_eq_ok, ensure_eq_ok, exists_and_left, exists_const, exists_unit,
        pure_eq_ok] at hplan
      obtain ⟨hle, hdescendants, fee, hfee, rfl⟩ := hplan
      obtain ⟨hlen, hspends⟩ := hvalid fee hfee
      exact ⟨rfl, h.base_eq ▸ h, rfl, rfl, rfl, rfl, rfl, hparents, hdirect, hancestors, hle,
        hchecked.mp hdescendants, hlen, hspends⟩
    · refine FailsIn.bind (FailsIn.ensure ⟨_, rfl, rfl⟩) fun _ => FailsIn.bind hfails fun _ =>
        FailsIn.bind (hinvalid.mono fun _ => IsUtxo.passed) fun _ => FailsIn.ok _
  · grind [error_bind, FailsIn.error]

end Sound

end Prepare

end Oregon.Pool
