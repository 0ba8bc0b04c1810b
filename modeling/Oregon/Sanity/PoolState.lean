import Oregon.Sanity.Codec
import Oregon.Sanity.PoolGraph
import Oregon.Sanity.Spends

/-! What holds of a pool at all times, next to the coins of the chain that it is based on. The
coins that its entries can spend are those of the chain and their own outputs. -/

namespace Oregon.Pool

open Lib Std Relation

/-- What an entry spends. -/
def MempoolEntry.claims (e : MempoolEntry) : List OutPoint :=
  e.transaction.inputs.map TxInput.outpoint

/-- The coins that are there for a pool: those of the chain, then those of the entries. -/
def coins (chain : UtxoState) (entries : Entries) (height : ℕ) (o : OutPoint) : Option UtxoEntry :=
  (chain.get o).or (entries[o.txid]?.bind fun e => producedAt e.transaction height o)

section

variable {chain : UtxoState} {entries entries' : Entries} {height : ℕ} {o : OutPoint}

theorem coins_of_chain {c : UtxoEntry} (h : chain.get o = some c) :
    coins chain entries height o = some c := by
  rw [coins, h, Option.some_or]

theorem coins_of_none (h : chain.get o = none) :
    coins chain entries height o =
      entries[o.txid]?.bind fun e => producedAt e.transaction height o := by
  rw [coins, h, Option.none_or]

theorem coins_eq_some {c : UtxoEntry} (h : coins chain entries height o = some c)
    (hnone : chain.get o = none) : ∃ e, entries[o.txid]? = some e ∧
      o.index.toNat < e.transaction.outputs.length := by
  rw [coins_of_none hnone, Option.bind_eq_some_iff] at h
  obtain ⟨e, he, hproduced⟩ := h
  exact ⟨e, he, producedAt_eq_some_iff.mp ⟨c, hproduced⟩⟩

theorem coins_congr (h : chain.get o = none → entries[o.txid]?.map MempoolEntry.transaction =
    entries'[o.txid]?.map MempoolEntry.transaction) :
    coins chain entries height o = coins chain entries' height o := by
  cases hget : chain.get o with
  | some c => rw [coins_of_chain hget, coins_of_chain hget]
  | none =>
    have hsame := h hget
    rw [coins_of_none hget, coins_of_none hget]
    grind

end

variable [Crypto]

/-- An entry is what was admitted: its links are those of its inputs, and its fee is what its
inputs leave. -/
structure EntrySound (chain : UtxoState) (entries : Entries) (height : ℕ) (txid : Hash256)
    (e : MempoolEntry) : Prop where
  txid_eq : e.txid = txid
  hash_eq : e.transaction.txid = txid
  bytes_eq : e.encodedBytes = e.transaction.encode.length
  outputs_le : e.transaction.outputs.length ≤ 2 ^ 32
  skeleton : validateNormalTransactionSkeleton e.transaction = .ok ()
  parents : ∀ p, p ∈ e.parents ↔ ∃ o ∈ e.claims, chain.get o = none ∧ o.txid = p
  spends : ∃ verifier, Spends (coins chain entries height) e.transaction height verifier e.fee

/-- A pool that is in order, on the coins of its chain. -/
structure Sound (chain : UtxoState) (pool : Mempool) : Prop where
  entry : ∀ (txid : Hash256) (e : MempoolEntry), pool.entries[txid]? = some e →
    EntrySound chain pool.entries (pool.base.tipHeight + 1) txid e
  spenders : ∀ (o : OutPoint) (txid : Hash256), pool.spenders[o]? = some txid ↔
    ∃ e, pool.entries[txid]? = some e ∧ o ∈ e.claims
  linked : Linked pool.entries
  totalBytes : pool.totalBytes = mapSum MempoolEntry.encodedBytes pool.entries
  maxEntries : pool.entries.size ≤ pool.config.maxEntries
  maxTotalBytes : pool.totalBytes ≤ pool.config.maxTotalBytes
  maxAncestors : ∀ txid ∈ pool.entries,
    (ancestors pool.entries txid).ncard ≤ pool.config.maxAncestors
  maxDescendants : ∀ txid ∈ pool.entries,
    (descendants pool.entries txid).ncard ≤ pool.config.maxDescendants

namespace Sound

variable {chain : UtxoState} {pool : Mempool} (h : Sound chain pool)

include h

theorem claim_unique {o : OutPoint} {a b : Hash256} {e e' : MempoolEntry}
    (he : pool.entries[a]? = some e) (he' : pool.entries[b]? = some e') (ho : o ∈ e.claims)
    (ho' : o ∈ e'.claims) : a = b :=
  Option.some.inj (((h.spenders o a).mpr ⟨e, he, ho⟩).symm.trans ((h.spenders o b).mpr ⟨e', he', ho'⟩))

theorem parent_claim {a p : Hash256} (hlink : ParentOf pool.entries a p) : ∃ e parent o,
    pool.entries[a]? = some e ∧ pool.entries[p]? = some parent ∧ o ∈ e.claims ∧
      chain.get o = none ∧ o.txid = p ∧ o.index.toNat < parent.transaction.outputs.length := by
  obtain ⟨e, he, hp⟩ := hlink
  have hsound := h.entry a e he
  obtain ⟨o, ho, hnone, rfl⟩ := (hsound.parents p).mp hp
  obtain ⟨verifier, hspends⟩ := hsound.spends
  obtain ⟨c, hc⟩ := hspends.present ho
  obtain ⟨parent, hparent, hlt⟩ := coins_eq_some hc hnone
  exact ⟨e, parent, o, he, hparent, ho, hnone, rfl, hlt⟩

theorem size_le : pool.entries.size ≤ pool.totalBytes := by
  rw [h.totalBytes]
  refine size_le_mapSum _ fun txid e he => ?_
  rw [(h.entry txid e he).bytes_eq]
  exact e.transaction.encode_length_pos

end Sound

end Oregon.Pool
