import Oregon.Sanity.PoolRebuild
import Oregon.Sanity.Sample

/-! A pool that is reached by calls, on whatever chains, is in order; so the errors that say that
it is broken are never returned, and nothing that is expected to be there is missing. -/

namespace Oregon.Pool

open Lib Relation
open Std (ExtTreeMap ExtTreeSet)

section

variable [Crypto]

/-- The pools that calls lead to, where `utxos` are the coins of the chain that a base names. -/
inductive Reachable (utxos : ChainBase → UtxoState) : Mempool → Prop where
  | new {base config pool} : Mempool.new base config = .ok pool → Reachable utxos pool
  | admitTx {pool} (tx base verifier) : Reachable utxos pool →
      Reachable utxos (perform (admitTx tx base (utxos base) verifier) pool).2
  | activeBlock {pool} (block base verifier) : Reachable utxos pool →
      Reachable utxos (perform (reconcileActiveBlock block base (utxos base) verifier) pool).2
  | reorg {pool} (base verifier) : Reachable utxos pool →
      Reachable utxos (perform (reconcileReorg base (utxos base) verifier) pool).2

/-- The five structures of a pool agree, and are within its limits. -/
structure Structured (pool : Mempool) : Prop where
  spenders : ∀ (o : OutPoint) (txid : Hash256), pool.spenders[o]? = some txid ↔
    ∃ e, pool.entries[txid]? = some e ∧ o ∈ e.claims
  oneSpender : ∀ (o : OutPoint) (a b : Hash256) (e e' : MempoolEntry), pool.entries[a]? = some e →
    pool.entries[b]? = some e' → o ∈ e.claims → o ∈ e'.claims → a = b
  symm : ∀ a b, ParentOf pool.entries a b ↔ ChildOf pool.entries b a
  contained : ∀ a b, ParentOf pool.entries a b → a ∈ pool.entries ∧ b ∈ pool.entries
  acyclic : ∀ a, ¬ TransGen (ParentOf pool.entries) a a
  edges : ∀ a b, ParentOf pool.entries a b → ∃ e parent o, pool.entries[a]? = some e ∧
    pool.entries[b]? = some parent ∧ parent.transaction.txid = b ∧ o ∈ e.claims ∧ o.txid = b ∧
    o.index.toNat < parent.transaction.outputs.length
  sizes : ∀ (a : Hash256) (e : MempoolEntry), pool.entries[a]? = some e →
    e.encodedBytes = e.transaction.encode.length
  totalBytes : pool.totalBytes = mapSum MempoolEntry.encodedBytes pool.entries
  maxEntries : pool.entries.size ≤ pool.config.maxEntries
  maxTotalBytes : pool.totalBytes ≤ pool.config.maxTotalBytes
  maxAncestors : ∀ a ∈ pool.entries, (ancestors pool.entries a).ncard ≤ pool.config.maxAncestors
  maxDescendants : ∀ a ∈ pool.entries,
    (descendants pool.entries a).ncard ≤ pool.config.maxDescendants

variable {utxos : ChainBase → UtxoState} {chain : UtxoState} {pool : Mempool}

theorem Sound.structured (h : Sound chain pool) : Structured pool where
  spenders := h.spenders
  oneSpender _ _ _ _ _ he he' ho ho' := h.claim_unique he he' ho ho'
  symm := h.linked.symm
  contained a b hlink := by
    have hparent := h.linked.parent_mem hlink
    obtain ⟨e, he, -⟩ := hlink
    exact ⟨(mem_iff_lookup _ _).mpr ⟨e, he⟩, hparent⟩
  acyclic a haa := h.linked.irrefl a (h.linked.mem_descendants_iff.mpr haa)
  edges a b hlink := by
    obtain ⟨e, parent, o, he, hparent, ho, -, htxid, hlt⟩ := h.parent_claim hlink
    exact ⟨e, parent, o, he, hparent, (h.entry b parent hparent).hash_eq, ho, htxid, hlt⟩
  sizes a e he := (h.entry a e he).bytes_eq
  totalBytes := h.totalBytes
  maxEntries := h.maxEntries
  maxTotalBytes := h.maxTotalBytes
  maxAncestors := h.maxAncestors
  maxDescendants := h.maxDescendants

theorem Sound.admit_step (h : Sound (utxos pool.base) pool) (tx : Transaction) (base : ChainBase)
    (verifier : SpendVerifier) :
    Sound (utxos (perform (admitTx tx base (utxos base) verifier) pool).2.base)
      (perform (admitTx tx base (utxos base) verifier) pool).2 := by
  cases hadmission : admission pool tx base (utxos base) verifier with
  | error halt =>
    rw [admit_of_error hadmission]
    exact h
  | ok r =>
    obtain ⟨plan, hprepare, -⟩ := bind_eq_ok.mp hadmission
    obtain rfl := (prepareAdmission_eligible hprepare).base_eq
    rw [admit_of_ok hadmission]
    rcases admission_cases h (admission_room hadmission) pool.base verifier with
      ⟨c, remove, bytes, pool₁, hadmitted, hok⟩ | ⟨halt, herror, -⟩
    · rw [hadmission] at hok
      obtain ⟨-, rfl⟩ := Prod.mk.inj (Except.ok.inj hok)
      rw [hadmitted.committed.base_eq]
      exact hadmitted.result_sound
    · rw [hadmission] at herror
      cases herror

theorem Reachable.sound (h : Reachable utxos pool) : Sound (utxos pool.base) pool := by
  induction h with
  | new hnew => exact (sound_new hnew _).1
  | admitTx tx base verifier _ ih => exact ih.admit_step tx base verifier
  | activeBlock block base verifier _ ih =>
    rcases reconcileActiveBlock_cases ih block base (utxos base) verifier with
      ⟨report, rebuilt, hok, hsound, hbase⟩ | ⟨halt, herror, -⟩
    · rw [hok, hbase]
      exact hsound
    · rw [herror]
      exact ih
  | reorg base verifier _ ih =>
    rcases reconcileReorg_cases ih base (utxos base) verifier with
      ⟨report, rebuilt, hok, hsound, hbase⟩ | ⟨halt, herror, -⟩
    · rw [hok, hbase]
      exact hsound
    · rw [herror]
      exact ih

/-- Every reachable pool is in order, and no call on it ends in an error about the pool itself, in
a failed `expect` or in a loop. -/
theorem pool_structured (h : Reachable utxos pool) : Structured pool ∧
    (∀ tx base verifier halt, pool.totalBytes + tx.encode.length < 2 ^ 64 →
      (perform (admitTx tx base (utxos base) verifier) pool).1 = .error halt → Refusal halt) ∧
    (∀ block base verifier halt,
      (perform (reconcileActiveBlock block base (utxos base) verifier) pool).1 = .error halt →
        Refusal halt) ∧
    ∀ base verifier halt,
      (perform (reconcileReorg base (utxos base) verifier) pool).1 = .error halt →
        Refusal halt := by
  have hs := h.sound
  refine ⟨hs.structured, fun tx base verifier halt hroom herror => ?_,
    fun block base verifier halt herror => ?_, fun base verifier halt herror => ?_⟩
  · by_cases hbase : base = pool.base
    · subst hbase
      rcases admission_cases hs hroom pool.base verifier with
        ⟨c, remove, bytes, pool', -, hok⟩ | ⟨halt', hfails, hrefusal, -⟩
      · rw [admit_of_ok hok] at herror
        cases herror
      · rw [admit_of_error hfails] at herror
        exact Except.error.inj herror ▸ hrefusal
    · have hnot : ¬ Eligible pool tx base := fun heligible => hbase heligible.base_eq
      obtain ⟨halt', hfails, hrefusal⟩ := prepareAdmission_refused (utxos base) verifier hnot
      have hadmission : admission pool tx base (utxos base) verifier = .error halt' := by
        rw [admission, hfails, error_bind]
      rw [admit_of_error hadmission] at herror
      exact Except.error.inj herror ▸ hrefusal
  · rcases reconcileActiveBlock_cases hs block base (utxos base) verifier with
      ⟨report, rebuilt, hok, -⟩ | ⟨halt', hfails, hrefusal⟩
    · rw [hok] at herror
      cases herror
    · rw [hfails] at herror
      exact Except.error.inj herror ▸ hrefusal
  · rcases reconcileReorg_cases hs base (utxos base) verifier with
      ⟨report, rebuilt, hok, -⟩ | ⟨halt', hfails, hrefusal⟩
    · rw [hok] at herror
      cases herror
    · rw [hfails] at herror
      exact Except.error.inj herror ▸ hrefusal

end

namespace Sample

open Oregon.Sample

/-- A transaction with the id `tag` that spends one output and leaves another. -/
def spend (o : OutPoint) (value : Amount) (tag : ℕ) : Transaction where
  version := 1
  inputs := [{ previousTxid := o.txid, previousOutputIndex := o.index, sequence := 0, witness := [] }]
  outputs := [⟨value, leBytes 8 tag⟩]
  lockTime := 0

def amount (n : ℕ) (h : n ≤ 1000) : Amount := ⟨n, h.trans (by decide)⟩

def coinsOnly : UtxoState :=
  ⟨(∅ : UtxoMap).insertMany (([7, 8, 9] : List Hash256).map fun txid =>
    (⟨txid, 0⟩, ⟨⟨amount 100 (by decide), []⟩, 1, false⟩))⟩

def utxos : ChainBase → UtxoState := fun _ => coinsOnly

def base : ChainBase := ⟨3, 5⟩

def small : MempoolConfig := ⟨3, 1000, 25, 25, by decide, by decide⟩

def empty : Mempool := { config := small, base, entries := ∅, spenders := ∅, totalBytes := 0 }

/-- The least fee. -/
def parent : Transaction := spend ⟨7, 0⟩ (amount 95 (by decide)) 2

/-- A better fee, but on the output of the parent. -/
def child : Transaction := spend ⟨2, 0⟩ (amount 75 (by decide)) 1

def other : Transaction := spend ⟨8, 0⟩ (amount 70 (by decide)) 3

def after (txs : List Transaction) : Mempool :=
  txs.foldl (fun pool tx => (perform (admitTx tx base (utxos base) verifier) pool).2) empty

theorem reachable_after (txs : List Transaction) : Reachable utxos (after txs) := by
  induction txs using List.reverseRecOn with
  | nil => exact .new (show Mempool.new base small = .ok empty from rfl)
  | append_singleton txs tx ih =>
    rw [after, List.foldl_append]
    exact ih.admitTx tx base verifier

end Sample

open Oregon.Sample Oregon.Pool.Sample in
/-- A full pool with a parent and its child. -/
theorem pool_structured_sample : (after [parent, child, other]).entries.keys = [1, 2, 3] ∧
    ParentOf (after [parent, child, other]).entries 1 2 ∧
    Structured (after [parent, child, other]) := by
  have hparents : (after [parent, child, other]).entries[(1 : Hash256)]?.map
      (fun e => e.parents.toList) = some [2] := by decide +kernel
  obtain ⟨e, he, hlist⟩ := Option.map_eq_some_iff.mp hparents
  have hmem : 2 ∈ e.parents := ExtTreeSet.mem_toList.mp (by rw [hlist]; exact .head _)
  exact ⟨by decide +kernel, ⟨e, he, hmem⟩, (pool_structured (reachable_after _)).1⟩

end Oregon.Pool
