import Oregon.Sanity.PoolCandidate
import Mathlib.Data.Rat.Cast.Order
import Mathlib.Order.Compare

/-! Making room for a candidate. Entries are ranked by fee rate, fee and id; as long as the pool
with the candidate is too large, the entry of the lowest rank goes, with its descendants,
unless the candidate depends on one of them. -/

namespace Oregon.Pool

open Lib
open Std (ExtTreeMap ExtTreeSet TransCmp)

section Rank

/-- An entry whose fee and size are in the range of their types, and that is not empty. -/
structure Ranked (e : MempoolEntry) : Prop where
  fee_lt : e.fee < 2 ^ 64
  bytes_pos : 0 < e.encodedBytes
  bytes_lt : e.encodedBytes < 2 ^ 64

def feeRate (e : MempoolEntry) : ℚ := e.fee / e.encodedBytes

/-- The fee rate decides, then the fee, then the id. -/
def rankCmp : MempoolEntry → MempoolEntry → Ordering :=
  compareLex (compareOn feeRate)
    (compareLex (compareOn MempoolEntry.fee) (compareOn MempoolEntry.txid))

instance : TransCmp rankCmp :=
  inferInstanceAs (TransCmp (compareLex (compareOn feeRate)
    (compareLex (compareOn MempoolEntry.fee) (compareOn MempoolEntry.txid))))

variable {l r e : MempoolEntry}

theorem compare_rates (hl : Ranked l) (hr : Ranked r) :
    compare (mulU128 l.fee r.encodedBytes) (mulU128 r.fee l.encodedBytes) =
      compare (feeRate l) (feeRate r) := by
  rw [mulU128_eq hl.fee_lt hr.bytes_lt, mulU128_eq hr.fee_lt hl.bytes_lt]
  have hlpos : (0 : ℚ) < l.encodedBytes := by exact_mod_cast hl.bytes_pos
  have hrpos : (0 : ℚ) < r.encodedBytes := by exact_mod_cast hr.bytes_pos
  have hlt : feeRate l < feeRate r ↔ l.fee * r.encodedBytes < r.fee * l.encodedBytes := by
    rw [feeRate, feeRate, div_lt_div_iff₀ hlpos hrpos]
    exact_mod_cast Iff.rfl
  have hgt : feeRate r < feeRate l ↔ r.fee * l.encodedBytes < l.fee * r.encodedBytes := by
    rw [feeRate, feeRate, div_lt_div_iff₀ hrpos hlpos]
    exact_mod_cast Iff.rfl
  rcases Nat.lt_trichotomy (l.fee * r.encodedBytes) (r.fee * l.encodedBytes) with h | h | h
  · rw [compare_lt_iff_lt.mpr h, compare_lt_iff_lt.mpr (hlt.mpr h)]
  · grind
  · rw [compare_gt_iff_gt.mpr h, compare_gt_iff_gt.mpr (hgt.mpr h)]

theorem evictionCmp_eq_rankCmp (hl : Ranked l) (hr : Ranked r) : evictionCmp l r = rankCmp l r := by
  rw [evictionCmp, compare_rates hl hr]
  rfl

theorem evictionCmp_trans (he : Ranked e) (hl : Ranked l) (hr : Ranked r)
    (hel : evictionCmp e l = .lt) (hlr : evictionCmp l r = .lt) : evictionCmp e r = .lt := by
  rw [evictionCmp_eq_rankCmp he hl] at hel
  rw [evictionCmp_eq_rankCmp hl hr] at hlr
  rw [evictionCmp_eq_rankCmp he hr]
  exact TransCmp.lt_trans hel hlr

end Rank

section Capacity

variable {pool : Mempool} {plan : AdmissionPlan} {c : PreparedCandidate}

/-- A victim stays so far, and ranks below the candidate. -/
theorem selectVictim_spec
    (hranked : ∀ (k : Hash256) (e : MempoolEntry), pool.entries[k]? = some e → Ranked e)
    (hc : Ranked plan.candidate.entry) {root : Hash256}
    (h : (selectVictim pool plan).1 = some root) : root ∉ plan.remove ∧
      ∃ e, pool.entries[root]? = some e ∧ evictionCmp e plan.candidate.entry = .lt := by
  -- the entry selected so far is the candidate, or one that ranks below it
  have hinv : Ranked (selectVictim pool plan).2 ∧
      ((selectVictim pool plan).1 = none → (selectVictim pool plan).2 = plan.candidate.entry) ∧
      ∀ k, (selectVictim pool plan).1 = some k → k ∉ plan.remove ∧
        pool.entries[k]? = some (selectVictim pool plan).2 ∧
        evictionCmp (selectVictim pool plan).2 plan.candidate.entry = .lt := by
    refine List.foldlRecOn (motive := fun (s : Option Hash256 × MempoolEntry) =>
      Ranked s.2 ∧ (s.1 = none → s.2 = plan.candidate.entry) ∧
      ∀ k, s.1 = some k → k ∉ plan.remove ∧ pool.entries[k]? = some s.2 ∧
        evictionCmp s.2 plan.candidate.entry = .lt) _ _ ⟨hc, fun _ => rfl, by simp⟩ ?_
    rintro ⟨selected, entry⟩ ⟨hselected, hnone, hsome⟩ ⟨txid, e⟩ hmem
    rw [ExtTreeMap.mem_toList_iff_getElem?_eq_some] at hmem
    dsimp only at hselected hnone hsome ⊢
    split_ifs with hremoved hlt
    · exact ⟨hselected, hnone, hsome⟩
    · have he := hranked txid e hmem
      refine ⟨he, by simp, ?_⟩
      rintro k hk
      obtain rfl := Option.some.inj hk
      refine ⟨hremoved, hmem, ?_⟩
      cases selected with
      | none => exact hnone rfl ▸ hlt
      | some k => exact evictionCmp_trans he hselected hc hlt (hsome k rfl).2.2
    · exact ⟨hselected, hnone, hsome⟩
  simp_all

/-- The bytes of an entry, none where there is no entry. -/
def bytesAt (entries : Entries) (txid : Hash256) : ℕ :=
  (entries[txid]?.map MempoolEntry.encodedBytes).getD 0

def bytesOf (entries : Entries) (remove : ExtTreeSet Hash256) : ℕ :=
  (remove.toList.map (bytesAt entries)).sum

theorem bytesOf_empty (entries : Entries) : bytesOf entries ∅ = 0 := rfl

theorem bytesOf_add {entries : Entries} {remove : ExtTreeSet Hash256}
    (hmem : ∀ k ∈ remove, k ∈ entries) :
    mapSum MempoolEntry.encodedBytes (remove.toList.foldl (·.erase ·) entries) +
      bytesOf entries remove = mapSum MempoolEntry.encodedBytes entries := by
  refine mapSum_eraseAll _ (Graph.nodup_toList remove) fun k hk => ?_
  obtain ⟨e, he⟩ := (mem_iff_lookup _ _).mp (hmem k (ExtTreeSet.mem_toList.mp hk))
  exact ⟨e, he, by simp [bytesAt, he]⟩

theorem removedBytes_eq {remove : ExtTreeSet Hash256} (hmem : ∀ k ∈ remove, k ∈ pool.entries)
    (hlt : bytesOf pool.entries remove < 2 ^ 64) :
    removedBytes pool remove = .ok (bytesOf pool.entries remove) := by
  have hfrom : ∀ (l : List Hash256) (removed : ℕ), (∀ k ∈ l, k ∈ pool.entries) →
      removed + (l.map (bytesAt pool.entries)).sum < 2 ^ 64 →
      l.foldlM (fun removed txid => do
        let entry ← orElse pool.entries[txid]? violation
        orElse (checkedAdd removed entry.encodedBytes) violation) removed =
        .ok (removed + (l.map (bytesAt pool.entries)).sum) := by
    intro l
    induction l with
    | nil =>
      intro removed _ _
      rfl
    | cons k l ih =>
      intro removed hmem hlt
      obtain ⟨e, he⟩ := (mem_iff_lookup _ _).mp (hmem k List.mem_cons_self)
      have hbytes : bytesAt pool.entries k = e.encodedBytes := by simp [bytesAt, he]
      rw [List.map_cons, List.sum_cons, hbytes, ← Nat.add_assoc] at hlt ⊢
      rw [List.foldlM_cons, he, orElse_some, ok_bind, checkedAdd_eq_some.mpr ⟨rfl, by omega⟩,
        orElse_some, ok_bind]
      exact ih _ (fun a ha => hmem a (List.mem_cons_of_mem _ ha)) hlt
  have hall := hfrom remove.toList 0 (fun k hk => hmem k (ExtTreeSet.mem_toList.mp hk))
    (by rwa [Nat.zero_add])
  rw [Nat.zero_add] at hall
  exact hall

/-- What is to be removed for a candidate: whole branches of entries that rank below it, none of
which it depends on. -/
structure Evicting (pool : Mempool) (c : PreparedCandidate) (remove : ExtTreeSet Hash256) : Prop where
  mem : ∀ k ∈ remove, k ∈ pool.entries
  closed : ∀ k ∈ remove, ∀ d ∈ descendants pool.entries k, d ∈ remove
  disjoint : ∀ k ∈ remove, k ∉ c.ancestors
  below : ∀ k ∈ remove, ∃ root ∈ remove, (k = root ∨ k ∈ descendants pool.entries root) ∧
    ∃ e, pool.entries[root]? = some e ∧ evictionCmp e c.entry = .lt

theorem Evicting.empty : Evicting pool c ∅ where
  mem k hk := by simp at hk
  closed k hk := by simp at hk
  disjoint k hk := by simp at hk
  below k hk := by simp at hk

theorem Evicting.add {remove branch : ExtTreeSet Hash256} (h : Evicting pool c remove)
    {root : Hash256} {e : MempoolEntry} (he : pool.entries[root]? = some e)
    (hlt : evictionCmp e c.entry = .lt) (hroot : root ∉ c.ancestors)
    (hbranch : ∀ k, k ∈ branch ↔ k ∈ descendants pool.entries root)
    (hmem : ∀ k ∈ branch, k ∈ pool.entries) (hdisjoint : ∀ k ∈ branch, k ∉ c.ancestors) :
    Evicting pool c ((remove.insert root).insertMany branch.toList) := by
  have hiff : ∀ k, k ∈ (remove.insert root).insertMany branch.toList ↔
      k = root ∨ k ∈ branch ∨ k ∈ remove := by
    grind
  constructor
  · intro k hk
    rcases (hiff k).mp hk with rfl | hk | hk
    · exact (mem_iff_lookup _ _).mpr ⟨e, he⟩
    · exact hmem k hk
    · exact h.mem k hk
  · intro k hk d hd
    rw [hiff]
    rcases (hiff k).mp hk with rfl | hk | hk
    · exact .inr (.inl ((hbranch d).mpr hd))
    · exact .inr (.inl ((hbranch d).mpr (Relation.TransGen.trans ((hbranch k).mp hk) hd)))
    · exact .inr (.inr (h.closed k hk d hd))
  · intro k hk
    rcases (hiff k).mp hk with rfl | hk | hk
    · exact hroot
    · exact hdisjoint k hk
    · exact h.disjoint k hk
  · intro k hk
    rcases (hiff k).mp hk with rfl | hk | hk
    · exact ⟨k, (hiff k).mpr (.inl rfl), .inl rfl, e, he, hlt⟩
    · exact ⟨root, (hiff root).mpr (.inl rfl), .inr ((hbranch k).mp hk), e, he, hlt⟩
    · obtain ⟨r, hr, hreach, hlower⟩ := h.below k hk
      exact ⟨r, (hiff r).mpr (.inr (.inr hr)), hreach, hlower⟩

/-- The pool without some entries and with the candidate is within the limits. -/
structure Planned (pool : Mempool) (c : PreparedCandidate) (remove : ExtTreeSet Hash256)
    (newTotalBytes : ℕ) : Prop where
  evicting : Evicting pool c remove
  bytes_eq : newTotalBytes + bytesOf pool.entries remove = pool.totalBytes + c.entry.encodedBytes
  bytes_le : newTotalBytes ≤ pool.config.maxTotalBytes
  entries_le : pool.entries.size + 1 ≤ pool.config.maxEntries + remove.size

end Capacity

section Rounds

variable [Crypto] {chain : UtxoState} {pool : Mempool} {tx : Transaction} {verifier : SpendVerifier}
  {c : PreparedCandidate} {remove : ExtTreeSet Hash256}

omit [Crypto] in
theorem encode_length_lt {tx : Transaction} (h : validateNormalTransactionSkeleton tx = .ok ()) :
    tx.encode.length < 2 ^ 64 :=
  lt_of_le_of_lt (normalSkeleton_ok h).1 (by decide)

theorem Sound.ranked (hs : Sound chain pool) (k : Hash256) (e : MempoolEntry)
    (he : pool.entries[k]? = some e) : Ranked e := by
  have hsound := hs.entry k e he
  obtain ⟨_, hspends⟩ := hsound.spends
  refine ⟨hspends.fee_lt, ?_, ?_⟩
  · exact hsound.bytes_eq ▸ e.transaction.encode_length_pos
  · exact hsound.bytes_eq ▸ encode_length_lt hsound.skeleton

theorem Candidate.ranked (hc : Candidate chain pool verifier tx c) : Ranked c.entry := by
  refine ⟨hc.spends.fee_lt, ?_, ?_⟩
  · exact hc.bytes_eq ▸ tx.encode_length_pos
  · exact hc.bytes_eq ▸ encode_length_lt hc.eligible.skeleton

theorem Sound.bytesOf_le (hs : Sound chain pool) (hmem : ∀ k ∈ remove, k ∈ pool.entries) :
    bytesOf pool.entries remove ≤ pool.totalBytes := by
  have := bytesOf_add hmem
  rw [← hs.totalBytes] at this
  omega

/-- The machine can hold the pool and the candidate. -/
abbrev Room (pool : Mempool) (tx : Transaction) : Prop :=
  pool.totalBytes + tx.encode.length < 2 ^ 64

theorem Room.size_lt (hs : Sound chain pool) (hroom : Room pool tx) :
    pool.entries.size + 1 < 2 ^ 64 := by
  have := hs.size_le
  have := tx.encode_length_pos
  omega

/-- What is prepared is a candidate, with nothing to remove yet. -/
theorem prepareAdmission_candidate {base : ChainBase} (hs : Sound chain pool) (hroom : Room pool tx)
    {plan : AdmissionPlan} (h : prepareAdmission pool tx base chain verifier = .ok plan) :
    ∃ c, plan = ⟨c, ∅⟩ ∧ Candidate chain pool verifier tx c := by
  obtain ⟨hempty, hc⟩ := (hs.prepareAdmission_spec verifier (hroom.size_lt hs)
    (prepareAdmission_eligible h)).1 _ h
  obtain ⟨c, remove⟩ := plan
  exact ⟨c, congrArg _ hempty, hc⟩

omit [Crypto] in
theorem removedBytes_fails (pool : Mempool) (remove : ExtTreeSet Hash256) :
    FailsIn (· = violation) (removedBytes pool remove) := by
  intro e he
  obtain ⟨removed, txid, -, herror⟩ := foldlM_eq_error he
  exact FailsIn.bind (P := (· = violation)) (FailsIn.orElse rfl) (fun _ => FailsIn.orElse rfl) e herror

omit [Crypto] in
/-- The first round fails when the machine cannot hold the pool and the candidate. -/
theorem capacityRound_noRoom {plan : AdmissionPlan}
    (hbytes : plan.candidate.entry.encodedBytes = tx.encode.length) (hroom : ¬ Room pool tx) :
    capacityRound pool plan = .error violation := by
  have hnone : checkedAdd pool.totalBytes plan.candidate.entry.encodedBytes = none := by
    rw [hbytes]
    exact checkedAdd_eq_none.mpr (Nat.not_lt.mp hroom)
  rw [capacityRound, hnone]
  cases hremoved : removedBytes pool plan.remove with
  | error e =>
    rw [removedBytes_fails _ _ e hremoved]
    rfl
  | ok removed =>
    cases (checkedAdd pool.entries.size 1).bind fun count => checkedSub count plan.remove.size with
    | none => rfl
    | some count => rfl

theorem capacity_totals (hs : Sound chain pool) (hc : Candidate chain pool verifier tx c)
    (hroom : Room pool tx) (hmem : ∀ k ∈ remove, k ∈ pool.entries) :
    removedBytes pool remove = .ok (bytesOf pool.entries remove) ∧
    ((checkedAdd pool.entries.size 1).bind fun count => checkedSub count remove.size) =
      some (pool.entries.size + 1 - remove.size) ∧
    ((checkedAdd pool.totalBytes c.entry.encodedBytes).bind fun bytes =>
      checkedSub bytes (bytesOf pool.entries remove)) =
      some (pool.totalBytes + c.entry.encodedBytes - bytesOf pool.entries remove) := by
  have hsize : remove.size ≤ pool.entries.size := Graph.size_le_of_subset hmem
  have hbytes := hs.bytesOf_le hmem
  have hcbytes := hc.bytes_eq
  refine ⟨removedBytes_eq hmem (by omega), ?_, ?_⟩
  · rw [checkedAdd_eq_some.mpr ⟨rfl, hroom.size_lt hs⟩]
    exact if_pos (by omega)
  · rw [checkedAdd_eq_some.mpr ⟨rfl, by omega⟩]
    exact if_pos (by omega)

/-- A round ends with a plan, goes on with a larger one, or gives up. -/
theorem capacityRound_cases (hs : Sound chain pool) (hc : Candidate chain pool verifier tx c)
    (hroom : Room pool tx) (h : Evicting pool c remove) :
    (∃ remove', capacityRound pool ⟨c, remove⟩ = .ok (.inl ⟨c, remove'⟩) ∧
      Evicting pool c remove' ∧
      pool.entries.size - remove'.size < pool.entries.size - remove.size) ∨
    (∃ bytes, capacityRound pool ⟨c, remove⟩ = .ok (.inr (⟨c, remove⟩, bytes)) ∧
      Planned pool c remove bytes) ∨
    capacityRound pool ⟨c, remove⟩ = .error (.error .capacityRejected) := by
  have hbytes := hs.bytesOf_le h.mem
  obtain ⟨hremoved, hcount, htotal⟩ := capacity_totals hs hc hroom h.mem
  rw [capacityRound, hremoved, ok_bind]
  dsimp only
  rw [hcount, orElse_some, ok_bind, htotal, orElse_some, ok_bind]
  split_ifs with hfits
  · exact .inr (.inl ⟨_, rfl, h, by omega, hfits.2, by omega⟩)
  cases hvictim : (selectVictim pool ⟨c, remove⟩).1 with
  | none => exact .inr (.inr rfl)
  | some root =>
    obtain ⟨hstays, e, he, hlt⟩ := selectVictim_spec hs.ranked hc.ranked hvictim
    have hnew : root ∉ remove := hstays
    have hrootmem : root ∈ pool.entries := (mem_iff_lookup _ _).mpr ⟨e, he⟩
    rw [orElse_some, ok_bind]
    by_cases hroot : root ∉ c.ancestors
    · rw [ensure_ok hroot, ok_bind]
      obtain ⟨branch, hbranch, hiff⟩ := hs.linked.descendantClosure_ok hrootmem
      rw [hbranch, ok_bind]
      by_cases hdisjoint : ¬ branch.toList.any (· ∈ c.ancestors)
      · rw [ensure_ok hdisjoint, ok_bind, ensure_ok hstays, ok_bind]
        have hbranchmem : ∀ k ∈ branch, k ∈ pool.entries := fun k hk =>
          hs.linked.descendant_mem ((hiff k).mp hk)
        have hmore := h.add he hlt hroot hiff hbranchmem fun k hk hin =>
          hdisjoint (List.any_eq_true.mpr ⟨k, ExtTreeSet.mem_toList.mpr hk, decide_eq_true hin⟩)
        refine .inl ⟨_, rfl, hmore, ?_⟩
        have hgrows : (remove.insert root).size ≤
            ((remove.insert root).insertMany branch.toList).size :=
          ExtTreeSet.size_le_size_insertMany_list
        have hle : ((remove.insert root).insertMany branch.toList).size ≤ pool.entries.size :=
          Graph.size_le_of_subset hmore.mem
        grind
      · rw [ensure_error hdisjoint, error_bind]
        exact .inr (.inr rfl)
    · rw [ensure_error hroot, error_bind]
      exact .inr (.inr rfl)

theorem planCapacity_cases (hs : Sound chain pool) (hc : Candidate chain pool verifier tx c)
    (hroom : Room pool tx) :
    (∃ remove bytes, planCapacity pool ⟨c, ∅⟩ = .ok (⟨c, remove⟩, bytes) ∧
      Planned pool c remove bytes) ∨
    planCapacity pool ⟨c, ∅⟩ = .error (.error .capacityRejected) := by
  let P : AdmissionPlan → Prop := fun plan => plan.candidate = c ∧ Evicting pool c plan.remove
  let R : Except Halt (AdmissionPlan × ℕ) → Prop := fun r =>
    (∃ remove bytes, r = .ok (⟨c, remove⟩, bytes) ∧ Planned pool c remove bytes) ∨
      r = .error (.error .capacityRejected)
  have hround : ∀ plan, P plan →
      (∃ plan', capacityRound pool plan = .ok (.inl plan') ∧ P plan' ∧
        pool.entries.size - plan'.remove.size < pool.entries.size - plan.remove.size) ∨
      (∃ r, capacityRound pool plan = .ok (.inr r) ∧ R (.ok r)) ∨
      ∃ e, capacityRound pool plan = .error e ∧ R (.error e) := by
    rintro ⟨_, remove⟩ ⟨rfl, hevicting⟩
    rcases capacityRound_cases hs hc hroom hevicting with
      ⟨remove', hgo, hmore, hless⟩ | ⟨bytes, hend, hplanned⟩ | hfail
    · exact .inl ⟨_, hgo, ⟨rfl, hmore⟩, hless⟩
    · exact .inr (.inl ⟨_, hend, .inl ⟨remove, bytes, rfl, hplanned⟩⟩)
    · exact .inr (.inr ⟨_, hfail, .inr rfl⟩)
  have hstart : P ⟨c, ∅⟩ := ⟨rfl, Evicting.empty⟩
  exact loop_rule (P := P) (R := R) _ hround hstart (by simp)

theorem planCapacity_fits (hs : Sound chain pool) (hc : Candidate chain pool verifier tx c)
    (hroom : Room pool tx) (hentries : pool.entries.size + 1 ≤ pool.config.maxEntries)
    (hbytes : pool.totalBytes + tx.encode.length ≤ pool.config.maxTotalBytes) :
    planCapacity pool ⟨c, ∅⟩ = .ok (⟨c, ∅⟩, pool.totalBytes + tx.encode.length) := by
  have hround : capacityRound pool ⟨c, ∅⟩ =
      .ok (.inr (⟨c, ∅⟩, pool.totalBytes + tx.encode.length)) := by
    obtain ⟨hremoved, hcount, htotal⟩ := capacity_totals hs hc hroom
      (Evicting.empty : Evicting pool c ∅).mem
    rw [hc.bytes_eq, bytesOf_empty] at htotal
    rw [capacityRound, hremoved, ok_bind]
    rw [hcount, orElse_some, ok_bind, bytesOf_empty, hc.bytes_eq, htotal, orElse_some, ok_bind,
      if_pos ⟨by simpa using hentries, hbytes⟩]
    rfl
  exact loop_end hround

end Rounds

end Oregon.Pool
