import Oregon.Sanity.PoolCapacity

/-! Carrying out a plan. The checks before it hold, and what it makes of the pool is known at every
key: the branches that go are gone from the entries, from the children of those that stay
and from the spenders, and the candidate is there. -/

namespace Oregon.Pool

open Lib
open Std (ExtTreeMap ExtTreeSet)

section Preflight

variable [Crypto] {chain : UtxoState} {pool : Mempool} {tx : Transaction} {verifier : SpendVerifier}
  {c : PreparedCandidate} {remove : ExtTreeSet Hash256} {newTotalBytes : ℕ}

theorem Candidate.parent_ancestor (hc : Candidate chain pool verifier tx c) {p : Hash256}
    (hp : p ∈ c.entry.parents) : p ∈ c.ancestors :=
  (hc.ancestors p).mpr ⟨p, hp, .refl⟩

theorem Candidate.ancestor_mem (hs : Sound chain pool) (hc : Candidate chain pool verifier tx c)
    {a : Hash256} (ha : a ∈ c.ancestors) : a ∈ pool.entries := by
  obtain ⟨p, hp, hreach⟩ := (hc.ancestors a).mp ha
  rcases Relation.ReflTransGen.cases_tail hreach with rfl | ⟨_, -, hlink⟩
  · exact hc.parents_mem a hp
  · exact hs.linked.parent_mem hlink

theorem preflight_ok (hs : Sound chain pool) (hc : Candidate chain pool verifier tx c)
    (hroom : Room pool tx) (hp : Planned pool c remove newTotalBytes) :
    preflightAdmissionPlan pool ⟨c, remove⟩ newTotalBytes = .ok () := by
  obtain ⟨order, horder, -⟩ := hs.linked.topologicalOrder_ok
  have hdisjoint : ¬ remove.toList.any (· ∈ c.ancestors) := by
    rw [List.any_eq_true]
    rintro ⟨k, hk, ha⟩
    exact hp.evicting.disjoint k (ExtTreeSet.mem_toList.mp hk) (of_decide_eq_true ha)
  have hstays : ∀ a ∈ c.ancestors, a ∉ remove := fun a ha hr => hp.evicting.disjoint a hr ha
  have hsize : remove.size ≤ pool.entries.size := Graph.size_le_of_subset hp.evicting.mem
  have hbytes := hs.bytesOf_le hp.evicting.mem
  have hbytes_eq := hp.bytes_eq
  have hcbytes := hc.bytes_eq
  have hentries := hp.entries_le
  have hsizelt := hroom.size_lt hs
  obtain ⟨hremoved, -⟩ := capacity_totals hs hc hroom hp.evicting.mem
  have htotal : ((checkedSub pool.totalBytes (bytesOf pool.entries remove)).bind fun bytes =>
      checkedAdd bytes c.entry.encodedBytes) = some newTotalBytes := by
    rw [checkedSub, if_pos hbytes]
    exact checkedAdd_eq_some.mpr ⟨by omega, by omega⟩
  have hcount : ((checkedSub pool.entries.size remove.size).bind fun count =>
      checkedAdd count 1) = some (pool.entries.size - remove.size + 1) := by
    rw [checkedSub, if_pos hsize]
    exact checkedAdd_eq_some.mpr ⟨rfl, by omega⟩
  simp only [preflightAdmissionPlan, bind_eq_ok, forM_eq_ok, exists_unit, orElse_eq_ok,
    ensure_eq_ok]
  refine ⟨order, horder, hdisjoint, fun p hparent => ?_, fun a ha => ?_, fun o ho => ?_,
    fun k hk => ?_, _, hremoved, _, htotal, ?_, _, hcount, by omega⟩
  · have hparent := ExtTreeSet.mem_toList.mp hparent
    have ha := hc.parent_ancestor hparent
    rintro (h | h | h)
    · exact h ha
    · exact hstays p ha h
    · exact h (hc.parents_mem p hparent)
  · have ha := ExtTreeSet.mem_toList.mp ha
    rintro (h | h)
    · exact hstays a ha h
    · exact h (hc.ancestor_mem hs ha)
  · rw [hc.claims_eq] at ho
    exact (notMem_iff_lookup _ _).mpr (hc.eligible.unspent o ho)
  · have hk := ExtTreeSet.mem_toList.mp hk
    obtain ⟨e, he⟩ := (mem_iff_lookup _ _).mp (hp.evicting.mem k hk)
    refine ⟨e, he, fun input hinput => ?_, ?_⟩
    · exact (hs.spenders _ _).mpr ⟨e, he, List.mem_map_of_mem hinput⟩
    · rw [List.any_eq_true]
      rintro ⟨child, hchild, hnot⟩
      exact of_decide_eq_true hnot (hp.evicting.closed k hk child
        (.single ⟨e, he, ExtTreeSet.mem_toList.mp hchild⟩))
  · have := hp.bytes_le
    omega

end Preflight

section Removal

variable {entries entries' : Entries} {change : ExtTreeSet Hash256 → ExtTreeSet Hash256}

/-- A set of ids without some. -/
def withoutIds (s : ExtTreeSet Hash256) (done : List Hash256) : ExtTreeSet Hash256 :=
  s.filter fun d => d ∉ done

@[simp] theorem mem_withoutIds {s : ExtTreeSet Hash256} {done : List Hash256} {d : Hash256} :
    d ∈ withoutIds s done ↔ d ∈ s ∧ d ∉ done := by
  simp [withoutIds, ExtTreeSet.mem_filter]

theorem withoutIds_nil (s : ExtTreeSet Hash256) : withoutIds s [] = s :=
  ExtTreeSet.ext_mem fun d => by simp

theorem withoutIds_erase (s : ExtTreeSet Hash256) (done : List Hash256) (k : Hash256) :
    (withoutIds s done).erase k = withoutIds s (done ++ [k]) := by
  refine ExtTreeSet.ext_mem fun d => ?_
  simp only [ExtTreeSet.mem_erase, mem_withoutIds, List.mem_append, List.mem_singleton, ne_eq,
    Std.compare_eq_iff_eq]
  tauto

theorem withoutIds_skip {s : ExtTreeSet Hash256} {k : Hash256} (h : k ∉ s) (done : List Hash256) :
    withoutIds s done = withoutIds s (done ++ [k]) := by
  refine ExtTreeSet.ext_mem fun d => ?_
  have hne : d ∈ s → d ≠ k := fun hd heq => h (heq ▸ hd)
  simp_all

variable (change) in
/-- Some entries have their children changed. -/
theorem changeChildren_all {ps : List Hash256} (hn : ps.Nodup) (hmem : ∀ p ∈ ps, p ∈ entries) :
    ∃ entries', ps.foldlM (changeChildren change) entries = .ok entries' ∧
      ∀ k : Hash256, entries'[k]? = if k ∈ ps then
        entries[k]?.map fun e => { e with children := change e.children } else entries[k]? := by
  induction ps generalizing entries with
  | nil => exact ⟨entries, rfl, by simp⟩
  | cons p ps ih =>
    rw [List.nodup_cons] at hn
    obtain ⟨e, he⟩ := (mem_iff_lookup _ _).mp (hmem p List.mem_cons_self)
    have hrest : ∀ q ∈ ps, q ∈ entries.insert p { e with children := change e.children } := by
      simp_all
    obtain ⟨entries', hok, hget⟩ := ih hn.2 hrest
    refine ⟨entries', ?_, fun k => ?_⟩
    · rw [List.foldlM_cons, changeChildren, he, orElse_some, ok_bind]
      exact hok
    · grind

/-- The pool when some of those that go are gone. -/
structure Removing (pool : Mempool) (remove : ExtTreeSet Hash256) (done : List Hash256)
    (pool' : Mempool) : Prop where
  config_eq : pool'.config = pool.config
  base_eq : pool'.base = pool.base
  entries : ∀ k : Hash256, pool'.entries[k]? = if k ∈ done then none
    else if k ∈ remove then pool.entries[k]?
    else pool.entries[k]?.map fun e => { e with children := withoutIds e.children done }
  spenders : ∀ o : OutPoint, pool'.spenders[o]? = pool.spenders[o]?.filter fun k => k ∉ done

variable [Crypto] {chain : UtxoState} {pool pool' : Mempool} {remove : ExtTreeSet Hash256}
  {done : List Hash256}

omit [Crypto] in
theorem Removing.start : Removing pool remove [] pool where
  config_eq := rfl
  base_eq := rfl
  entries k := by
    cases pool.entries[k]? <;> simp [withoutIds_nil]
  spenders o := by cases pool.spenders[o]? <;> simp [Option.filter]

/-- One more is gone: from the entries, from the children of its parents that stay, and its
claims from the spenders. -/
theorem Removing.step (hs : Sound chain pool) (h : Removing pool remove done pool')
    {k : Hash256} {e : MempoolEntry} (he : pool.entries[k]? = some e) (hk : k ∈ remove)
    (hnew : k ∉ done) (hdone : ∀ a ∈ done, a ∈ remove) :
    ∃ pool'', commitRemoval pool' (k, e.claims, e.parents.toList.filter fun p => p ∉ remove) =
      .ok pool'' ∧ Removing pool remove (done ++ [k]) pool'' := by
  have hps : ∀ p ∈ e.parents.toList.filter (fun p => p ∉ remove), p ∈ pool'.entries := by
    intro p hp
    rw [List.mem_filter, ExtTreeSet.mem_toList, decide_eq_true_eq] at hp
    obtain ⟨parent, hparent⟩ :=
      (mem_iff_lookup _ _).mp (hs.linked.parent_mem ⟨e, he, hp.1⟩)
    have hnot : p ∉ done := fun hin => hp.2 (hdone p hin)
    rw [mem_iff_lookup, h.entries, if_neg hnot, if_neg hp.2, hparent]
    exact ⟨_, rfl⟩
  obtain ⟨entries, hok, hget⟩ := changeChildren_all (fun children => children.erase k)
    ((Graph.nodup_toList e.parents).filter _) hps
  refine ⟨{ pool' with entries := entries.erase k
                       spenders := e.claims.foldl (·.erase ·) pool'.spenders }, ?_, h.config_eq,
    h.base_eq, fun a => ?_, fun o => ?_⟩
  · rw [commitRemoval, hok, ok_bind]
    rfl
  · dsimp only
    rw [lookup_erase, hget, h.entries]
    by_cases hak : a = k
    · subst hak
      simp
    by_cases hadone : a ∈ done
    · simp [hadone, Ne.symm hak]
    by_cases haremove : a ∈ remove
    · simp [hadone, hak, Ne.symm hak, haremove]
    -- a parent loses this child, and no other entry has it
    have hlink : a ∈ e.parents ↔ ChildOf pool.entries a k := by
      rw [← hs.linked.symm]
      constructor
      · exact fun hin => ⟨e, he, hin⟩
      · rintro ⟨e', he', hin⟩
        exact Option.some.inj (he.symm.trans he') ▸ hin
    have hlist : a ∈ e.parents.toList.filter (fun p => p ∉ remove) ↔ a ∈ e.parents := by
      simp [haremove]
    have hsnoc : a ∉ done ++ [k] := by simp [hadone, hak]
    rw [if_neg (Ne.symm hak), if_neg hadone, if_neg haremove, if_neg hsnoc, if_neg haremove]
    simp only [hlist]
    cases hentry : pool.entries[a]? with
    | none => simp
    | some v =>
      split_ifs with ha
      · simp [withoutIds_erase]
      · have hnot : k ∉ v.children := fun hin => ha (hlink.mpr ⟨v, hentry, hin⟩)
        rw [Option.map_some, Option.map_some, withoutIds_skip hnot]
  · dsimp only
    rw [lookup_eraseAll, h.spenders]
    have hclaim : o ∈ e.claims ↔ pool.spenders[o]? = some k := by
      rw [hs.spenders]
      simp_all
    grind

theorem Removing.run (hs : Sound chain pool) {l : List Hash256}
    (h : Removing pool remove done pool') (hn : (done ++ l).Nodup)
    (hl : ∀ a ∈ done ++ l, a ∈ remove) (hmem : ∀ a ∈ remove, a ∈ pool.entries) :
    ∃ removals pool'', l.mapM (removal pool remove) = .ok removals ∧
      removals.foldlM commitRemoval pool' = .ok pool'' ∧ Removing pool remove (done ++ l) pool'' := by
  induction l generalizing done pool' with
  | nil => exact ⟨[], pool', rfl, rfl, by rwa [List.append_nil]⟩
  | cons k l ih =>
    have hk : k ∈ remove := hl k (by simp)
    obtain ⟨e, he⟩ := (mem_iff_lookup _ _).mp (hmem k hk)
    have hnew : k ∉ done := fun hin => List.disjoint_of_nodup_append hn hin List.mem_cons_self
    obtain ⟨pool₁, hstep, h₁⟩ := h.step hs he hk hnew fun a ha => hl a (List.mem_append_left _ ha)
    rw [List.append_cons] at hn hl ⊢
    obtain ⟨removals, pool₂, hremovals, hrun, h₂⟩ := ih h₁ hn hl
    refine ⟨(k, e.claims, e.parents.toList.filter fun p => p ∉ remove) :: removals, pool₂, ?_, ?_,
      h₂⟩
    · rw [List.mapM_cons, removal, he, orElse_some, ok_bind, hremovals]
      rfl
    · rw [List.foldlM_cons, hstep, ok_bind, hrun]

end Removal

section Commit

variable [Crypto] {chain : UtxoState} {pool : Mempool} {tx : Transaction} {verifier : SpendVerifier}
  {c : PreparedCandidate} {remove : ExtTreeSet Hash256} {newTotalBytes : ℕ}

/-- An entry that stays. -/
def stays (c : PreparedCandidate) (remove : ExtTreeSet Hash256) (k : Hash256) (e : MempoolEntry) :
    MempoolEntry :=
  { e with children := if k ∈ c.entry.parents
                       then (withoutIds e.children remove.toList).insert c.entry.txid
                       else withoutIds e.children remove.toList }

/-- The pool that a plan makes of another. -/
structure Committed (pool : Mempool) (c : PreparedCandidate) (remove : ExtTreeSet Hash256)
    (newTotalBytes : ℕ) (pool' : Mempool) : Prop where
  config_eq : pool'.config = pool.config
  base_eq : pool'.base = pool.base
  totalBytes_eq : pool'.totalBytes = newTotalBytes
  entries : ∀ k : Hash256, pool'.entries[k]? = if k = c.entry.txid then some c.entry
    else if k ∈ remove then none else pool.entries[k]?.map (stays c remove k)
  spenders : ∀ o : OutPoint, pool'.spenders[o]? = if o ∈ c.spendClaims then some c.entry.txid
    else pool.spenders[o]?.filter fun k => k ∉ remove

omit [Crypto] in
theorem lookup_insertClaims (claims : List OutPoint) (txid : Hash256)
    (m : ExtTreeMap OutPoint Hash256) (o : OutPoint) :
    (claims.foldl (fun spenders outpoint => spenders.insert outpoint txid) m)[o]? =
      if o ∈ claims then some txid else m[o]? := by
  induction claims generalizing m with
  | nil => simp
  | cons a claims ih => grind

theorem commit_ok (hs : Sound chain pool) (hc : Candidate chain pool verifier tx c)
    (hp : Planned pool c remove newTotalBytes) :
    ∃ pool', commitAdmission pool ⟨c, remove⟩ newTotalBytes =
      .ok (⟨c.entry.txid, c.entry.fee, c.entry.encodedBytes, remove.toList⟩, pool') ∧
      Committed pool c remove newTotalBytes pool' := by
  have hempty : Removing pool remove [] pool := Removing.start
  have hnodup : ([] ++ remove.toList).Nodup := Graph.nodup_toList remove
  obtain ⟨removals, pool₁, hremovals, hrun, h₁⟩ := hempty.run hs hnodup (by simp) hp.evicting.mem
  rw [List.nil_append] at h₁
  have hparents : ∀ p ∈ c.entry.parents.toList, p ∈ pool₁.entries := by
    intro p hparent
    have hparent := ExtTreeSet.mem_toList.mp hparent
    have hstays : p ∉ remove := fun hr => hp.evicting.disjoint p hr (hc.parent_ancestor hparent)
    obtain ⟨e, he⟩ := (mem_iff_lookup _ _).mp (hc.parents_mem p hparent)
    rw [mem_iff_lookup, h₁.entries, if_neg (by simpa using hstays), if_neg hstays, he]
    exact ⟨_, rfl⟩
  obtain ⟨entries, hok, hget⟩ := changeChildren_all (fun children => children.insert c.entry.txid)
    (Graph.nodup_toList c.entry.parents) hparents
  refine ⟨{ pool₁ with entries := entries.insert c.entry.txid c.entry
                       spenders := c.spendClaims.foldl (fun spenders outpoint =>
                         spenders.insert outpoint c.entry.txid) pool₁.spenders
                       totalBytes := newTotalBytes }, ?_, h₁.config_eq, h₁.base_eq, rfl,
    fun k => ?_, fun o => ?_⟩
  · rw [commitAdmission]
    simp_all
  · dsimp only
    rw [lookup_insert, hget, h₁.entries]
    by_cases hk : k = c.entry.txid
    · simp [hk]
    by_cases hr : k ∈ remove
    · simp [hr, hk, Ne.symm hk]
    · rw [if_neg (Ne.symm hk), if_neg hk, if_neg hr]
      simp only [ExtTreeSet.mem_toList, if_neg hr]
      cases pool.entries[k]? with
      | none => simp
      | some e =>
        by_cases hparent : k ∈ c.entry.parents
        · simp [stays, hparent]
        · simp [stays, hparent]
  · dsimp only
    rw [lookup_insertClaims, h₁.spenders]
    simp only [ExtTreeSet.mem_toList]

end Commit

end Oregon.Pool
