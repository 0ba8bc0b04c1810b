import Oregon.Proofs.PoolInvariant

/-! Who goes when a pool is full: entries that rank below the candidate, with all that depends on
them, and none that the candidate depends on. -/

namespace Oregon.Pool

open Lib Relation
open Std (ExtTreeMap ExtTreeSet TransCmp OrientedCmp)

section Order

variable {l r : MempoolEntry}

theorem evictionCmp_lt_iff (hl : Ranked l) (hr : Ranked r) : evictionCmp l r = .lt ↔
    feeRate l < feeRate r ∨ (feeRate l = feeRate r ∧ (l.fee < r.fee ∨
      (l.fee = r.fee ∧ l.txid < r.txid))) := by
  have htxid : compare l.txid r.txid = .lt ↔ l.txid < r.txid :=
    compareOfLessAndEq_eq_lt
  rw [evictionCmp_eq_rankCmp hl hr]
  simp only [rankCmp, compareLex, compareOn, Ordering.then_eq_lt, compare_lt_iff_lt,
    compare_eq_iff_eq]
  rw [htxid]

theorem evictionCmp_swap (hl : Ranked l) (hr : Ranked r) :
    evictionCmp l r = .gt ↔ evictionCmp r l = .lt := by
  rw [evictionCmp_eq_rankCmp hl hr, evictionCmp_eq_rankCmp hr hl]
  exact OrientedCmp.gt_iff_lt

theorem evictionCmp_irrefl (hl : Ranked l) : evictionCmp l l ≠ .lt := by
  rw [ne_eq, evictionCmp_lt_iff hl hl]
  simp

theorem evictionCmp_total (hl : Ranked l) (hr : Ranked r) (hne : l.txid ≠ r.txid) :
    evictionCmp l r = .lt ∨ evictionCmp r l = .lt := by
  cases hcmp : evictionCmp l r with
  | lt => exact .inl rfl
  | gt => exact .inr ((evictionCmp_swap hl hr).mp hcmp)
  | eq =>
    rw [evictionCmp_eq_rankCmp hl hr] at hcmp
    simp only [rankCmp, compareLex, compareOn, Ordering.then_eq_eq] at hcmp
    exact absurd (Std.compare_eq_iff_eq.mp hcmp.2.2) hne

end Order

section Fair

variable [Crypto] {utxos : ChainBase → UtxoState} {chain : UtxoState} {pool pool' : Mempool}

/-- What the entries that go for a transaction are, and what is left. -/
structure Fair (chain : UtxoState) (pool : Mempool) (tx : Transaction) (outcome : AdmissionOutcome)
    (pool' : Mempool) : Prop where
  closed : ∀ k ∈ outcome.evicted, ∀ d ∈ descendants pool.entries k, d ∈ outcome.evicted
  disjoint : ∀ k ∈ outcome.evicted, ∀ o ∈ tx.inputs.map TxInput.outpoint, chain.get o = none →
    ¬ ReflTransGen (ParentOf pool.entries) o.txid k
  union : ∃ entry, pool'.entries[tx.txid]? = some entry ∧ ∃ roots : Set Hash256,
    (∀ root ∈ roots, ∃ e, pool.entries[root]? = some e ∧ evictionCmp e entry = .lt) ∧
    ∀ k, k ∈ outcome.evicted ↔ ∃ root ∈ roots, k = root ∨ k ∈ descendants pool.entries root
  left : ∀ k, k ∈ pool'.entries ↔ k = tx.txid ∨ (k ∈ pool.entries ∧ k ∉ outcome.evicted)
  kept : ∀ (k : Hash256) (e : MempoolEntry), pool.entries[k]? = some e → k ∉ outcome.evicted →
    ∃ children, pool'.entries[k]? = some { e with children }
  config_eq : pool'.config = pool.config
  entries_le : pool'.entries.size ≤ pool.config.maxEntries
  bytes_le : pool'.totalBytes ≤ pool.config.maxTotalBytes
  none_if_fits : pool.entries.size + 1 ≤ pool.config.maxEntries →
    pool.totalBytes + tx.encode.length ≤ pool.config.maxTotalBytes → outcome.evicted = []

theorem Admitted.fair {tx : Transaction} {verifier : SpendVerifier} {c : PreparedCandidate}
    {remove : ExtTreeSet Hash256} {bytes : ℕ}
    (h : Admitted chain pool verifier tx c remove bytes pool')
    (hfits : pool.entries.size + 1 ≤ pool.config.maxEntries →
      pool.totalBytes + tx.encode.length ≤ pool.config.maxTotalBytes → remove = ∅) :
    Fair chain pool tx ⟨c.entry.txid, c.entry.fee, c.entry.encodedBytes, remove.toList⟩ pool' where
  closed k hk d hd := by
    rw [ExtTreeSet.mem_toList] at hk ⊢
    exact h.planned.evicting.closed k hk d hd
  disjoint k hk o ho hnone hreach := by
    have hparent := (h.candidate.parents o.txid).mpr ⟨o, ho, hnone, rfl⟩
    exact h.planned.evicting.disjoint k (ExtTreeSet.mem_toList.mp hk)
      ((h.candidate.ancestors k).mpr ⟨o.txid, hparent, hreach⟩)
  union := by
    refine ⟨c.entry, h.candidate.txid_eq ▸ h.lookup_self, {root | root ∈ remove ∧
      ∃ e, pool.entries[root]? = some e ∧ evictionCmp e c.entry = .lt}, fun root hroot => hroot.2,
      fun k => ?_⟩
    rw [ExtTreeSet.mem_toList]
    constructor
    · intro hk
      obtain ⟨root, hroot, hreach, hlower⟩ := h.planned.evicting.below k hk
      exact ⟨root, ⟨hroot, hlower⟩, hreach⟩
    · rintro ⟨root, ⟨hroot, -⟩, rfl | hk⟩
      · exact hroot
      · exact h.planned.evicting.closed root hroot k hk
  left k := by
    rw [← h.candidate.txid_eq, ExtTreeSet.mem_toList]
    constructor
    · intro hk
      obtain ⟨e, he⟩ := (mem_iff_lookup _ _).mp hk
      rcases h.lookup_cases he with ⟨rfl, -⟩ | ⟨-, hr, e', he', -⟩
      · exact .inl rfl
      · exact .inr ⟨(mem_iff_lookup _ _).mpr ⟨e', he'⟩, hr⟩
    · rintro (rfl | ⟨hk, hr⟩)
      · exact (mem_iff_lookup _ _).mpr ⟨_, h.lookup_self⟩
      · obtain ⟨e, he⟩ := (mem_iff_lookup _ _).mp hk
        exact (mem_iff_lookup _ _).mpr ⟨_, h.lookup_stays he hr⟩
  kept k e he hr := ⟨_, h.lookup_stays he fun hk => hr (ExtTreeSet.mem_toList.mpr hk)⟩
  config_eq := h.committed.config_eq
  entries_le := by
    have hsize := h.size_eq
    have hle := h.planned.entries_le
    omega
  bytes_le := by
    rw [h.committed.totalBytes_eq]
    exact h.planned.bytes_le
  none_if_fits hentries hbytes := by
    rw [hfits hentries hbytes]
    rfl

theorem planCapacity_ends (hs : Sound chain pool) {tx : Transaction} {base : ChainBase}
    {verifier : SpendVerifier} {plan : AdmissionPlan}
    (hprepare : prepareAdmission pool tx base chain verifier = .ok plan) :
    planCapacity pool plan ≠ .error .divergence := by
  by_cases hroom : Room pool tx
  · obtain ⟨c, rfl, hc⟩ := prepareAdmission_candidate hs hroom hprepare
    grind [planCapacity_cases]
  · rw [planCapacity, loop_fail (capacityRound_noRoom (prepareAdmission_bytes hprepare) hroom)]
    simp [violation]

/-- Making room ends, takes only what ranks below the candidate and what depends on it, leaves all
other entries, and is not done without need; ranks are a strict total order; and a refused
transaction changes nothing. -/
theorem eviction_fair (h : Reachable utxos pool) :
    (∀ tx verifier plan, prepareAdmission pool tx pool.base (utxos pool.base) verifier = .ok plan →
      planCapacity pool plan ≠ .error .divergence) ∧
    (∀ tx base verifier outcome pool',
      perform (admitTx tx base (utxos base) verifier) pool = (.ok outcome, pool') →
        Fair (utxos base) pool tx outcome pool' ∧
        ∀ (k : Hash256) (e : MempoolEntry), pool'.entries[k]? = some e → Ranked e) ∧
    (∀ tx base verifier halt pool',
      perform (admitTx tx base (utxos base) verifier) pool = (.error halt, pool') → pool' = pool) ∧
    (∀ (k : Hash256) (e : MempoolEntry), pool.entries[k]? = some e → Ranked e) ∧
    (∀ l r, Ranked l → Ranked r → (evictionCmp l r = .lt ↔
      feeRate l < feeRate r ∨ (feeRate l = feeRate r ∧ (l.fee < r.fee ∨
        (l.fee = r.fee ∧ l.txid < r.txid))))) ∧
    (∀ l, Ranked l → evictionCmp l l ≠ .lt) ∧
    (∀ l m r, Ranked l → Ranked m → Ranked r → evictionCmp l m = .lt → evictionCmp m r = .lt →
      evictionCmp l r = .lt) ∧
    ∀ l r, Ranked l → Ranked r → l.txid ≠ r.txid →
      evictionCmp l r = .lt ∨ evictionCmp r l = .lt := by
  have hs := h.sound
  refine ⟨fun tx verifier plan => planCapacity_ends hs, fun tx base verifier outcome pool' hok => ?_,
    fun tx base verifier halt pool' => admit_error, hs.ranked, fun l r => evictionCmp_lt_iff,
    fun l => evictionCmp_irrefl, fun l m r => evictionCmp_trans, fun l r => evictionCmp_total⟩
  cases hadmission : admission pool tx base (utxos base) verifier with
  | error halt =>
    rw [admit_of_error hadmission] at hok
    cases hok
  | ok result =>
    obtain ⟨outcome₁, pool₁⟩ := result
    rw [admit_of_ok hadmission] at hok
    obtain ⟨hout, rfl⟩ := Prod.mk.inj hok
    obtain rfl := Except.ok.inj hout
    obtain ⟨plan, hprepare, -⟩ := bind_eq_ok.mp hadmission
    obtain rfl := (prepareAdmission_eligible hprepare).base_eq
    have hroom := admission_room hadmission
    rcases admission_cases hs hroom pool.base verifier with
      ⟨c, remove, bytes, pool₂, hadmitted, hsame⟩ | ⟨halt, herror, -⟩
    · rw [hadmission] at hsame
      obtain ⟨rfl, rfl⟩ := Prod.mk.inj (Except.ok.inj hsame)
      refine ⟨hadmitted.fair fun hentries hbytes => ?_, hadmitted.result_sound.ranked⟩
      obtain ⟨c', pool₃, -, hfits⟩ := admission_fits hs hroom hprepare hentries hbytes
      rw [hadmission] at hfits
      have hnil := congrArg (fun r => r.1.evicted) (Except.ok.inj hfits)
      exact ExtTreeSet.toList_eq_nil_iff.mp hnil
    · rw [hadmission] at herror
      cases herror

end Fair

section Sample

open Oregon.Sample Oregon.Pool.Sample

/-- A fee above all others. -/
def Sample.rich : Transaction := spend ⟨9, 0⟩ (amount 60 (by decide)) 4

/-- The parent goes for a better transaction, and its child with it; the third entry stays. -/
theorem eviction_fair_sample :
    perform (admitTx rich base (utxos base) verifier) (after [parent, child, other]) =
      (.ok ⟨4, 40, 70, [1, 2]⟩, after [parent, child, other, rich]) ∧
    (after [parent, child, other, rich]).entries.keys = [3, 4] ∧
    Fair coinsOnly (after [parent, child, other]) rich ⟨4, 40, 70, [1, 2]⟩
      (after [parent, child, other, rich]) := by
  have hok : perform (admitTx rich base (utxos base) verifier)
      (after [parent, child, other]) =
        (.ok ⟨4, 40, 70, [1, 2]⟩, after [parent, child, other, rich]) := by decide +kernel
  exact ⟨hok, by decide +kernel, ((eviction_fair (reachable_after _)).2.1 _ _ _ _ _ hok).1⟩

end Sample

end Oregon.Pool
