import Oregon.Sanity.PoolCommit

/-! An admission keeps the pool in order. The links of the new pool are those of the old one
between entries that stay, and those of the candidate to its parents. -/

namespace Oregon.Pool

open Lib Relation
open Std (ExtTreeMap ExtTreeSet)

variable [Crypto] {chain : UtxoState} {pool pool' : Mempool} {tx : Transaction}
  {verifier : SpendVerifier} {c : PreparedCandidate} {remove : ExtTreeSet Hash256}
  {newTotalBytes : ℕ}

/-- A pool, a plan for it and the pool that the plan makes of it. -/
structure Admitted (chain : UtxoState) (pool : Mempool) (verifier : SpendVerifier)
    (tx : Transaction) (c : PreparedCandidate) (remove : ExtTreeSet Hash256) (newTotalBytes : ℕ)
    (pool' : Mempool) : Prop where
  sound : Sound chain pool
  candidate : Candidate chain pool verifier tx c
  planned : Planned pool c remove newTotalBytes
  committed : Committed pool c remove newTotalBytes pool'

namespace Admitted

variable (h : Admitted chain pool verifier tx c remove newTotalBytes pool')

include h

theorem txid_notMem : c.entry.txid ∉ pool.entries := h.candidate.txid_eq ▸ h.candidate.eligible.new

theorem txid_notRemoved : c.entry.txid ∉ remove := fun hr =>
  h.txid_notMem (h.planned.evicting.mem _ hr)

theorem lookup_self : pool'.entries[c.entry.txid]? = some c.entry := by
  rw [h.committed.entries, if_pos rfl]

/-- An entry of the new pool is the candidate or stays from the old one. -/
theorem lookup_cases {k : Hash256} {e : MempoolEntry} (he : pool'.entries[k]? = some e) :
    (k = c.entry.txid ∧ e = c.entry) ∨ (k ≠ c.entry.txid ∧ k ∉ remove ∧
      ∃ e', pool.entries[k]? = some e' ∧ e = stays c remove k e') := by
  rw [h.committed.entries] at he
  grind

theorem lookup_stays {k : Hash256} {e : MempoolEntry} (he : pool.entries[k]? = some e)
    (hr : k ∉ remove) : pool'.entries[k]? = some (stays c remove k e) := by
  have hk : k ≠ c.entry.txid := fun heq =>
    h.txid_notMem (heq ▸ (mem_iff_lookup _ _).mpr ⟨e, he⟩)
  rw [h.committed.entries, if_neg hk, if_neg hr, he]
  rfl

theorem parentOf_self {b : Hash256} :
    ParentOf pool'.entries c.entry.txid b ↔ b ∈ c.entry.parents := by
  constructor
  · rintro ⟨e, he, hb⟩
    rw [h.lookup_self] at he
    exact Option.some.inj he ▸ hb
  · exact fun hb => ⟨_, h.lookup_self, hb⟩

theorem parentOf_iff {a b : Hash256} (ha : a ≠ c.entry.txid) :
    ParentOf pool'.entries a b ↔ a ∉ remove ∧ ParentOf pool.entries a b := by
  constructor
  · rintro ⟨e, he, hb⟩
    rcases h.lookup_cases he with ⟨heq, -⟩ | ⟨-, hr, e', he', rfl⟩
    · exact absurd heq ha
    · exact ⟨hr, e', he', hb⟩
  · rintro ⟨hr, e, he, hb⟩
    exact ⟨_, h.lookup_stays he hr, hb⟩

theorem childOf_iff {a b : Hash256} : ChildOf pool'.entries a b ↔
    a ∉ remove ∧ ((ChildOf pool.entries a b ∧ b ∉ remove) ∨
      (a ∈ c.entry.parents ∧ b = c.entry.txid)) := by
  constructor
  · rintro ⟨e, he, hb⟩
    rcases h.lookup_cases he with ⟨rfl, rfl⟩ | ⟨-, hr, e', he', rfl⟩
    · rw [h.candidate.children_eq] at hb
      simp at hb
    · refine ⟨hr, ?_⟩
      rw [stays] at hb
      split_ifs at hb with hparent
      · rcases ExtTreeSet.mem_insert.mp hb with hb | hb
        · exact .inr ⟨hparent, (Std.compare_eq_iff_eq.mp hb).symm⟩
        · simp only [mem_withoutIds, ExtTreeSet.mem_toList] at hb
          exact .inl ⟨⟨e', he', hb.1⟩, hb.2⟩
      · simp only [mem_withoutIds, ExtTreeSet.mem_toList] at hb
        exact .inl ⟨⟨e', he', hb.1⟩, hb.2⟩
  · rintro ⟨hr, ⟨⟨e, he, hb⟩, hbr⟩ | ⟨hparent, rfl⟩⟩
    · refine ⟨_, h.lookup_stays he hr, ?_⟩
      have hmem : b ∈ withoutIds e.children remove.toList := by simp [hb, hbr]
      grind [stays]
    · obtain ⟨e, he⟩ := (mem_iff_lookup _ _).mp (h.candidate.parents_mem a hparent)
      refine ⟨_, h.lookup_stays he hr, ?_⟩
      rw [stays, if_pos hparent]
      exact ExtTreeSet.mem_insert.mpr (.inl (by simp))

/-- An entry with a parent that goes would go itself. -/
theorem parent_stays {a b : Hash256} (hlink : ParentOf pool.entries a b) (ha : a ∉ remove) :
    b ∉ remove := fun hb =>
  ha (h.planned.evicting.closed b hb a (.single ((h.sound.linked.symm a b).mp hlink)))

theorem candidate_parent_stays {p : Hash256} (hp : p ∈ c.entry.parents) : p ∉ remove := fun hr =>
  h.planned.evicting.disjoint p hr (h.candidate.parent_ancestor hp)

theorem parent_ne_self {a b : Hash256} (hlink : ParentOf pool.entries a b) : b ≠ c.entry.txid :=
  fun heq => h.txid_notMem (heq ▸ h.sound.linked.parent_mem hlink)

theorem linked : Linked pool'.entries where
  symm a b := by
    rw [h.childOf_iff]
    by_cases ha : a = c.entry.txid
    · subst ha
      rw [h.parentOf_self]
      constructor
      · exact fun hb => ⟨h.candidate_parent_stays hb, .inr ⟨hb, rfl⟩⟩
      · rintro ⟨-, ⟨hlink, -⟩ | ⟨hb, -⟩⟩
        · exact absurd (h.sound.linked.child_mem hlink) h.txid_notMem
        · exact hb
    · rw [h.parentOf_iff ha, h.sound.linked.symm]
      constructor
      · rintro ⟨hr, hlink⟩
        exact ⟨h.parent_stays ((h.sound.linked.symm a b).mpr hlink) hr, .inl ⟨hlink, hr⟩⟩
      · simp_all
  acyclic := by
    obtain ⟨rank, hrank⟩ := h.sound.linked.acyclic
    -- the candidate ranks above all its parents
    refine ⟨fun k => if k = c.entry.txid then (c.entry.parents.toList.map rank).sum + 1 else rank k,
      fun a b hlink => ?_⟩
    by_cases ha : a = c.entry.txid
    · subst ha
      have hb := h.parentOf_self.mp hlink
      have hne : b ≠ c.entry.txid := fun heq => h.txid_notMem (heq ▸ h.candidate.parents_mem b hb)
      have hle : rank b ≤ (c.entry.parents.toList.map rank).sum :=
        List.le_sum_of_mem (List.mem_map_of_mem (ExtTreeSet.mem_toList.mpr hb))
      simp only [if_neg hne, if_pos]
      omega
    · have hold := ((h.parentOf_iff ha).mp hlink).2
      simp only [if_neg ha, if_neg (h.parent_ne_self hold)]
      exact hrank a b hold

/-- An entry that stays has no new ancestors. -/
theorem ancestors_stay {a b : Hash256} (ha : a ≠ c.entry.txid) (hb : b ∈ ancestors pool'.entries a) :
    b ∈ ancestors pool.entries a ∧ b ≠ c.entry.txid := by
  induction hb with
  | single hlink =>
    have hold := ((h.parentOf_iff ha).mp hlink).2
    exact ⟨.single hold, h.parent_ne_self hold⟩
  | tail _ hlink ih =>
    have hold := ((h.parentOf_iff ih.2).mp hlink).2
    exact ⟨ih.1.tail hold, h.parent_ne_self hold⟩

theorem ancestors_self {a : Hash256} (ha : a ∈ ancestors pool'.entries c.entry.txid) :
    a ∈ c.ancestors := by
  obtain ⟨p, hp, hreach⟩ := TransGen.head'_iff.mp ha
  have hp := h.parentOf_self.mp hp
  have hne : p ≠ c.entry.txid := fun heq => h.txid_notMem (heq ▸ h.candidate.parents_mem p hp)
  rcases reflTransGen_iff_eq_or_transGen.mp hreach with rfl | hreach
  · exact h.candidate.parent_ancestor hp
  · exact (h.candidate.ancestors a).mpr ⟨p, hp, (h.ancestors_stay hne hreach).1.to_reflTransGen⟩

theorem descendants_subset {k : Hash256} : descendants pool'.entries k ⊆
    if k ∈ c.ancestors then insert c.entry.txid (descendants pool.entries k)
    else descendants pool.entries k := by
  intro d hd
  rw [h.linked.mem_descendants_iff] at hd
  by_cases hself : d = c.entry.txid
  · subst hself
    rw [if_pos (h.ancestors_self hd)]
    exact .inl rfl
  · have hold : d ∈ descendants pool.entries k :=
      h.sound.linked.mem_descendants_iff.mpr (h.ancestors_stay hself hd).1
    grind

/-- The coins at an outpoint are the same when the entry that makes it stays. -/
theorem coins_eq {height : ℕ} {o : OutPoint}
    (ho : chain.get o = none → o.txid ∈ pool.entries ∧ o.txid ∉ remove) :
    coins chain pool.entries height o = coins chain pool'.entries height o := by
  refine coins_congr fun hnone => ?_
  obtain ⟨hmem, hr⟩ := ho hnone
  obtain ⟨e, he⟩ := (mem_iff_lookup _ _).mp hmem
  rw [he, h.lookup_stays he hr]
  rfl

theorem entry_sound (k : Hash256) (e : MempoolEntry) (he : pool'.entries[k]? = some e) :
    EntrySound chain pool'.entries (pool'.base.tipHeight + 1) k e := by
  rw [h.committed.base_eq]
  rcases h.lookup_cases he with ⟨rfl, rfl⟩ | ⟨-, hr, e', he', rfl⟩
  · have hc := h.candidate
    refine ⟨rfl, ?_, ?_, ?_, ?_, fun p => ?_, verifier, ?_⟩
    · rw [hc.transaction_eq, hc.txid_eq]
    · rw [hc.transaction_eq, hc.bytes_eq]
    · rw [hc.transaction_eq]
      exact hc.outputs_le
    · rw [hc.transaction_eq]
      exact hc.eligible.skeleton
    · rw [hc.parents, MempoolEntry.claims, hc.transaction_eq]
    · rw [hc.transaction_eq]
      refine hc.spends.congr fun o ho => h.coins_eq fun hnone => ?_
      have hp := (hc.parents o.txid).mpr ⟨o, ho, hnone, rfl⟩
      exact ⟨hc.parents_mem _ hp, h.candidate_parent_stays hp⟩
  · have hsound := h.sound.entry k e' he'
    obtain ⟨verifier', hspends⟩ := hsound.spends
    refine ⟨hsound.txid_eq, hsound.hash_eq, hsound.bytes_eq, hsound.outputs_le, hsound.skeleton,
      hsound.parents, verifier', ?_⟩
    refine hspends.congr fun o ho => h.coins_eq fun hnone => ?_
    have hlink : ParentOf pool.entries k o.txid :=
      ⟨e', he', (hsound.parents _).mpr ⟨o, ho, hnone, rfl⟩⟩
    exact ⟨h.sound.linked.parent_mem hlink, h.parent_stays hlink hr⟩

theorem spenders_iff (o : OutPoint) (k : Hash256) : pool'.spenders[o]? = some k ↔
    ∃ e, pool'.entries[k]? = some e ∧ o ∈ e.claims := by
  have hc := h.candidate
  have hclaims : c.entry.claims = c.spendClaims := by
    rw [MempoolEntry.claims, hc.transaction_eq, hc.claims_eq]
  rw [h.committed.spenders]
  split_ifs with ho
  · constructor
    · intro hk
      obtain rfl := Option.some.inj hk
      exact ⟨_, h.lookup_self, hclaims ▸ ho⟩
    · rintro ⟨e, he, hclaim⟩
      rcases h.lookup_cases he with ⟨rfl, -⟩ | ⟨-, -, e', he', rfl⟩
      · rfl
      · have hspent := (h.sound.spenders o k).mpr ⟨e', he', hclaim⟩
        rw [hc.eligible.unspent o (hc.claims_eq ▸ ho)] at hspent
        cases hspent
  · rw [Option.filter_eq_some_iff, h.sound.spenders, decide_eq_true_eq]
    constructor
    · rintro ⟨⟨e, he, hclaim⟩, hr⟩
      exact ⟨_, h.lookup_stays he hr, hclaim⟩
    · rintro ⟨e, he, hclaim⟩
      rcases h.lookup_cases he with ⟨-, rfl⟩ | ⟨-, hr, e', he', rfl⟩
      · exact absurd (hclaims ▸ hclaim) ho
      · exact ⟨⟨e', he', hclaim⟩, hr⟩

/-- A sum over the entries changes by what goes and by the candidate. -/
theorem mapSum_eq {f : MempoolEntry → ℕ} (hf : ∀ k e, f (stays c remove k e) = f e) :
    mapSum f pool'.entries + (remove.toList.map fun k => (pool.entries[k]?.map f).getD 0).sum =
      mapSum f pool.entries + f c.entry := by
  have hself := mapSum_erase f h.lookup_self
  have hrest : mapSum f (pool'.entries.erase c.entry.txid) =
      mapSum f (remove.toList.foldl (·.erase ·) pool.entries) := by
    refine mapSum_congr f fun k => ?_
    rw [lookup_erase, lookup_eraseAll, h.committed.entries]
    simp only [ExtTreeSet.mem_toList]
    by_cases hk : k = c.entry.txid
    · subst hk
      simp [h.txid_notRemoved, (notMem_iff_lookup _ _).mp h.txid_notMem]
    · grind
  have hgone := mapSum_eraseAll f (g := fun k => (pool.entries[k]?.map f).getD 0)
    (Graph.nodup_toList remove) fun k hk => by
      obtain ⟨e, he⟩ := (mem_iff_lookup _ _).mp (h.planned.evicting.mem k (ExtTreeSet.mem_toList.mp hk))
      exact ⟨e, he, by simp [he]⟩
  omega

theorem totalBytes_eq : pool'.totalBytes = mapSum MempoolEntry.encodedBytes pool'.entries := by
  have hsum := h.mapSum_eq (f := MempoolEntry.encodedBytes) fun _ _ => rfl
  have hbytes := h.planned.bytes_eq
  rw [← h.sound.totalBytes] at hsum
  rw [h.committed.totalBytes_eq]
  unfold bytesOf bytesAt at hbytes
  omega

theorem size_eq : pool'.entries.size + remove.size = pool.entries.size + 1 := by
  have hsum := h.mapSum_eq (f := fun _ => 1) fun _ _ => rfl
  have hgone : (remove.toList.map fun k => (pool.entries[k]?.map fun _ => 1).getD 0) =
      remove.toList.map fun _ => 1 := by
    refine List.map_congr_left fun k hk => ?_
    obtain ⟨e, he⟩ := (mem_iff_lookup _ _).mp (h.planned.evicting.mem k (ExtTreeSet.mem_toList.mp hk))
    simp [he]
  rw [mapSum_one, mapSum_one, hgone, List.map_const', List.sum_replicate,
    ExtTreeSet.length_toList] at hsum
  simpa using hsum

theorem ancestors_le (k : Hash256) (hk : k ∈ pool'.entries) :
    (ancestors pool'.entries k).ncard ≤ pool'.config.maxAncestors := by
  rw [h.committed.config_eq]
  by_cases hself : k = c.entry.txid
  · subst hself
    have hsize : Set.ncard {a | a ∈ c.ancestors} = c.ancestors.size :=
      Graph.ncard_eq_size fun _ => Iff.rfl
    calc (ancestors pool'.entries c.entry.txid).ncard ≤ Set.ncard {a | a ∈ c.ancestors} :=
          Set.ncard_le_ncard (fun a => h.ancestors_self) (Graph.finite_of_mem_iff fun _ ha => ha)
      _ = c.ancestors.size := hsize
      _ ≤ pool.config.maxAncestors := h.candidate.ancestors_le
  · obtain ⟨e, he⟩ := (mem_iff_lookup _ _).mp hk
    rcases h.lookup_cases he with ⟨heq, -⟩ | ⟨-, -, e', he', -⟩
    · exact absurd heq hself
    · refine le_trans (Set.ncard_le_ncard (fun a ha => (h.ancestors_stay hself ha).1)
        (Linked.finite_of_subset fun a ha => h.sound.linked.ancestor_mem ha)) ?_
      exact h.sound.maxAncestors k ((mem_iff_lookup _ _).mpr ⟨e', he'⟩)

theorem descendants_le (k : Hash256) (hk : k ∈ pool'.entries) :
    (descendants pool'.entries k).ncard ≤ pool'.config.maxDescendants := by
  rw [h.committed.config_eq]
  have hfinite : (descendants pool.entries k).Finite :=
    Linked.finite_of_subset fun a ha => h.sound.linked.descendant_mem ha
  have hsubset := h.descendants_subset (k := k)
  by_cases ha : k ∈ c.ancestors
  · rw [if_pos ha] at hsubset
    calc (descendants pool'.entries k).ncard
        ≤ (insert c.entry.txid (descendants pool.entries k)).ncard :=
          Set.ncard_le_ncard hsubset (hfinite.insert _)
      _ ≤ (descendants pool.entries k).ncard + 1 := Set.ncard_insert_le _ _
      _ ≤ pool.config.maxDescendants := h.candidate.descendants_lt k ha
  · rw [if_neg ha] at hsubset
    have hle := Set.ncard_le_ncard hsubset hfinite
    obtain ⟨e, he⟩ := (mem_iff_lookup _ _).mp hk
    rcases h.lookup_cases he with ⟨rfl, -⟩ | ⟨-, -, e', he', -⟩
    · -- nothing of the old pool descends from the candidate
      have hnone : descendants pool.entries c.entry.txid = ∅ := by
        rw [Set.eq_empty_iff_forall_notMem]
        intro d hd
        obtain ⟨b, ⟨e', he', -⟩, -⟩ := TransGen.head'_iff.mp hd
        exact h.txid_notMem ((mem_iff_lookup _ _).mpr ⟨e', he'⟩)
      rw [hnone, Set.ncard_empty] at hle
      omega
    · exact hle.trans (h.sound.maxDescendants k ((mem_iff_lookup _ _).mpr ⟨e', he'⟩))

/-- The new pool is in order. -/
theorem result_sound : Sound chain pool' where
  entry := h.entry_sound
  spenders := h.spenders_iff
  linked := h.linked
  totalBytes := h.totalBytes_eq
  maxEntries := by
    have hsize := h.size_eq
    have hentries := h.planned.entries_le
    rw [h.committed.config_eq]
    omega
  maxTotalBytes := by
    rw [h.committed.config_eq, h.committed.totalBytes_eq]
    exact h.planned.bytes_le
  maxAncestors := h.ancestors_le
  maxDescendants := h.descendants_le

end Admitted

section Calls

variable {base : ChainBase}

/-- An admission is computed first and carried out at once. -/
def admission (pool : Mempool) (tx : Transaction) (base : ChainBase) (chain : UtxoState)
    (verifier : SpendVerifier) : Except Halt (AdmissionOutcome × Mempool) := do
  let plan ← prepareAdmission pool tx base chain verifier
  let planned ← planCapacity pool plan
  preflightAdmissionPlan pool planned.1 planned.2
  commitAdmission pool planned.1 planned.2

theorem admit_of_ok {outcome : AdmissionOutcome}
    (h : admission pool tx base chain verifier = .ok (outcome, pool')) :
    perform (admitTx tx base chain verifier) pool = (.ok outcome, pool') := by
  simp only [admission, bind_eq_ok, exists_unit] at h
  obtain ⟨plan, hplan, planned, hplanned, hpreflight, hcommit⟩ := h
  rw [admitTx, perform_get_bind, hplan, perform_check_ok, hplanned, perform_check_ok, hpreflight,
    perform_check_ok, hcommit, perform_check_ok]
  rfl

theorem admit_of_error {halt : Halt} (h : admission pool tx base chain verifier = .error halt) :
    perform (admitTx tx base chain verifier) pool = (.error halt, pool) := by
  rw [admitTx, perform_get_bind]
  grind [admission, bind_eq_error, perform_check_error, perform_check_ok]

/-- A call that fails leaves the pool as it was. -/
theorem admit_error {halt : Halt}
    (h : perform (admitTx tx base chain verifier) pool = (.error halt, pool')) : pool' = pool := by
  cases hadmission : admission pool tx base chain verifier with
  | ok r =>
    rw [admit_of_ok hadmission] at h
    cases h
  | error e =>
    rw [admit_of_error hadmission] at h
    exact (Prod.mk.inj h).2.symm

theorem admission_cases (hs : Sound chain pool) (hroom : Room pool tx) (base : ChainBase)
    (verifier : SpendVerifier) :
    (∃ c remove newTotalBytes pool',
      Admitted chain pool verifier tx c remove newTotalBytes pool' ∧
      admission pool tx base chain verifier =
        .ok (⟨c.entry.txid, c.entry.fee, c.entry.encodedBytes, remove.toList⟩, pool')) ∨
    (∃ halt, admission pool tx base chain verifier = .error halt ∧ Refusal halt ∧
      (Eligible pool tx base → Passed halt)) := by
  by_cases heligible : Eligible pool tx base
  · have hfails := (hs.prepareAdmission_spec verifier (hroom.size_lt hs) heligible).2
    cases hprepare : prepareAdmission pool tx base chain verifier with
    | error halt =>
      have hpassed := hfails halt hprepare
      exact .inr ⟨halt, by rw [admission, hprepare, error_bind], hpassed.refusal, fun _ => hpassed⟩
    | ok plan =>
      obtain ⟨c, rfl, hc⟩ := prepareAdmission_candidate hs hroom hprepare
      rw [admission, hprepare, ok_bind]
      rcases planCapacity_cases hs hc hroom with ⟨remove, bytes, hplanned, hp⟩ | hrejected
      · obtain ⟨pool', hcommit, hcommitted⟩ := commit_ok hs hc hp
        refine .inl ⟨c, remove, bytes, pool', ⟨hs, hc, hp, hcommitted⟩, ?_⟩
        rw [hplanned, ok_bind, preflight_ok hs hc hroom hp, ok_bind, hcommit]
      · have hpassed : Passed (.error .capacityRejected) := ⟨_, rfl, rfl⟩
        exact .inr ⟨_, by rw [hrejected, error_bind], hpassed.refusal, fun _ => hpassed⟩
  · obtain ⟨halt, herror, hrefusal⟩ := prepareAdmission_refused chain verifier heligible
    exact .inr ⟨halt, by rw [admission, herror, error_bind], hrefusal, fun h => absurd h heligible⟩

/-- A candidate for which there is room is admitted, and nothing goes for it. -/
theorem admission_fits (hs : Sound chain pool) (hroom : Room pool tx) {plan : AdmissionPlan}
    (hprepare : prepareAdmission pool tx base chain verifier = .ok plan)
    (hentries : pool.entries.size + 1 ≤ pool.config.maxEntries)
    (hbytes : pool.totalBytes + tx.encode.length ≤ pool.config.maxTotalBytes) :
    ∃ c pool', Admitted chain pool verifier tx c ∅ (pool.totalBytes + tx.encode.length) pool' ∧
      admission pool tx base chain verifier =
        .ok (⟨c.entry.txid, c.entry.fee, c.entry.encodedBytes, []⟩, pool') := by
  obtain ⟨c, rfl, hc⟩ := prepareAdmission_candidate hs hroom hprepare
  have hplan := planCapacity_fits hs hc hroom hentries hbytes
  have hp : Planned pool c ∅ (pool.totalBytes + tx.encode.length) :=
    ⟨Evicting.empty, by rw [bytesOf_empty, hc.bytes_eq, Nat.add_zero], hbytes, by simpa using hentries⟩
  obtain ⟨pool', hcommit, hcommitted⟩ := commit_ok hs hc hp
  refine ⟨c, pool', ⟨hs, hc, hp, hcommitted⟩, ?_⟩
  rw [admission, hprepare, ok_bind, hplan, ok_bind, preflight_ok hs hc hroom hp, ok_bind, hcommit]
  rfl

/-- Only what there is room for is admitted. -/
theorem admission_room {r : AdmissionOutcome × Mempool}
    (h : admission pool tx base chain verifier = .ok r) : Room pool tx := by
  simp only [admission, bind_eq_ok] at h
  obtain ⟨plan, hplan, planned, hplanned, -⟩ := h
  by_contra hroom
  have hround := capacityRound_noRoom (prepareAdmission_bytes hplan) hroom
  rw [planCapacity, loop_fail hround] at hplanned
  cases hplanned

end Calls

end Oregon.Pool
