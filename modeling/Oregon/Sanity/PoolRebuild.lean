import Oregon.Sanity.PoolAdmit

/-! Reconciliation: the entries are admitted again, one after another, to an empty pool. A refusal
that a rebuild passes over leaves the new pool as it is. There is always room, since the
old pool held all of them. -/

namespace Oregon.Pool

open Lib
open Std (ExtTreeMap ExtTreeSet)

variable [Crypto] {chain : UtxoState} {pool rebuilt : Mempool} {verifier : SpendVerifier}
  {base : ChainBase}

theorem sound_new {config : MempoolConfig} (h : Mempool.new base config = .ok pool)
    (chain : UtxoState) : Sound chain pool ∧ pool.base = base ∧ pool.config = config ∧
      pool.entries = ∅ ∧ pool.totalBytes = 0 := by
  rw [Mempool.new] at h
  split_ifs at h with hzero
  obtain rfl := Except.ok.inj h
  have hlink : ∀ (links : MempoolEntry → ExtTreeSet Hash256) a b,
      ¬ Graph.Link (∅ : Entries) links a b := by
    rintro links a b ⟨e, he, -⟩
    simp at he
  refine ⟨⟨by simp, by simp, ⟨fun a b => ?_, fun _ => 0, fun a b hab => ?_⟩, rfl, by simp, by simp,
    by simp, by simp⟩, rfl, rfl, rfl, rfl⟩
  · exact iff_of_false (hlink _ a b) (hlink _ b a)
  · exact absurd hab (hlink _ a b)

/-- What a rebuild has made so far of a chain's coins. -/
structure Rebuilding (chain : UtxoState) (base : ChainBase) (config : MempoolConfig) (bytes : ℕ)
    (rebuilt : Mempool) : Prop where
  sound : Sound chain rebuilt
  base_eq : rebuilt.base = base
  config_eq : rebuilt.config = config
  bytes_le : rebuilt.totalBytes ≤ bytes

variable (verifier) in
theorem Rebuilding.step {config : MempoolConfig} {bytes : ℕ}
    (h : Rebuilding chain base config bytes rebuilt) {source : Hash256 × Transaction}
    (hid : source.2.txid = source.1) (hroom : bytes + source.2.encode.length < 2 ^ 64) :
    (∃ rebuilt', rebuildStep base chain verifier rebuilt source = .ok rebuilt' ∧
      Rebuilding chain base config (bytes + source.2.encode.length) rebuilt') ∨
    ∃ halt, rebuildStep base chain verifier rebuilt source = .error halt ∧ Refusal halt := by
  have hbytes := h.bytes_le
  have hroom' : Room rebuilt source.2 := by omega
  rw [rebuildStep, ensure_ok hid, ok_bind]
  rcases admission_cases h.sound hroom' base verifier with
    ⟨c, remove, bytes', rebuilt', hadmitted, hok⟩ | ⟨halt, herror, hrefusal, -⟩
  · refine .inl ⟨rebuilt', ?_, hadmitted.result_sound, ?_, ?_, ?_⟩
    · rw [admit_of_ok hok]
      rfl
    · rw [hadmitted.committed.base_eq, h.base_eq]
    · rw [hadmitted.committed.config_eq, h.config_eq]
    · have htotal := hadmitted.committed.totalBytes_eq
      have hplanned := hadmitted.planned.bytes_eq
      have hsize := hadmitted.candidate.bytes_eq
      omega
  · obtain ⟨e, rfl, hviolation, hcycle⟩ := hrefusal
    rw [admit_of_error herror]
    dsimp only
    split_ifs with hfilterable
    · exact .inl ⟨rebuilt, rfl, h.sound, h.base_eq, h.config_eq, by omega⟩
    · exact .inr ⟨_, rfl, e, rfl, hviolation, hcycle⟩

variable (verifier) in
theorem Rebuilding.run {config : MempoolConfig} {bytes : ℕ} {sources : List (Hash256 × Transaction)}
    (h : Rebuilding chain base config bytes rebuilt) (hid : ∀ s ∈ sources, s.2.txid = s.1)
    (hroom : bytes + (sources.map fun s => s.2.encode.length).sum < 2 ^ 64) :
    (∃ rebuilt', sources.foldlM (rebuildStep base chain verifier) rebuilt = .ok rebuilt' ∧
      Rebuilding chain base config (bytes + (sources.map fun s => s.2.encode.length).sum) rebuilt') ∨
    ∃ halt, sources.foldlM (rebuildStep base chain verifier) rebuilt = .error halt ∧
      Refusal halt := by
  induction sources generalizing rebuilt bytes with
  | nil => exact .inl ⟨rebuilt, rfl, by simpa using h⟩
  | cons s sources ih =>
    rw [List.map_cons, List.sum_cons, ← Nat.add_assoc] at hroom ⊢
    rw [List.foldlM_cons]
    rcases h.step verifier (hid s List.mem_cons_self) (by omega) with
      ⟨rebuilt', hok, hstep⟩ | ⟨halt, herror, hrefusal⟩
    · simp_all
    · rw [herror, error_bind]
      exact .inr ⟨halt, rfl, hrefusal⟩

section Sources

/-- The entries of a list of ids, as they are admitted again. -/
def sourcesOf (entries : Entries) (l : List Hash256) : List (Hash256 × Transaction) :=
  l.filterMap fun txid => entries[txid]?.map fun e => (txid, e.transaction)

variable (hs : Sound chain pool) {l : List Hash256} (hmem : ∀ k ∈ l, k ∈ pool.entries)

include hmem

omit [Crypto] in
theorem sources_ok : l.mapM (sourceOf pool.entries) = .ok (sourcesOf pool.entries l) := by
  induction l with
  | nil => rfl
  | cons k l ih =>
    obtain ⟨e, he⟩ := (mem_iff_lookup _ _).mp (hmem k List.mem_cons_self)
    rw [List.mapM_cons, sourceOf, he, orElse_some, ok_bind,
      ih fun a ha => hmem a (List.mem_cons_of_mem _ ha), sourcesOf, sourcesOf,
      List.filterMap_cons_some (by rw [he]; rfl)]
    rfl

omit hmem in
include hs in
theorem source_txid {s : Hash256 × Transaction} (h : s ∈ sourcesOf pool.entries l) :
    s.2.txid = s.1 := by
  obtain ⟨k, -, hk⟩ := List.mem_filterMap.mp h
  obtain ⟨e, he, rfl⟩ := Option.map_eq_some_iff.mp hk
  exact (hs.entry k e he).hash_eq

include hs in
theorem sources_bytes_le (hn : l.Nodup) :
    ((sourcesOf pool.entries l).map fun s => s.2.encode.length).sum ≤ pool.totalBytes := by
  have hsum : ((sourcesOf pool.entries l).map fun s => s.2.encode.length).sum =
      (l.map (bytesAt pool.entries)).sum := by
    clear hn
    induction l with
    | nil => rfl
    | cons k l ih =>
      obtain ⟨e, he⟩ := (mem_iff_lookup _ _).mp (hmem k List.mem_cons_self)
      have hrest := ih fun a ha => hmem a (List.mem_cons_of_mem _ ha)
      rw [sourcesOf, List.filterMap_cons_some (by rw [he]; rfl), List.map_cons, List.sum_cons,
        List.map_cons, List.sum_cons, ← hrest, bytesAt, he, Option.map_some, Option.getD_some,
        (hs.entry k e he).bytes_eq]
      rfl
  have hgone := mapSum_eraseAll MempoolEntry.encodedBytes (g := bytesAt pool.entries) hn
    fun k hk => by
      obtain ⟨e, he⟩ := (mem_iff_lookup _ _).mp (hmem k hk)
      exact ⟨e, he, by simp [bytesAt, he]⟩
  rw [hsum, hs.totalBytes]
  omega

end Sources

section Reconcile

variable {chain' : UtxoState} {l : List Hash256}

theorem rebuild_cases (hs : Sound chain pool) (hn : l.Nodup) (hmem : ∀ k ∈ l, k ∈ pool.entries)
    (base : ChainBase) (chain' : UtxoState) (verifier : SpendVerifier) :
    (∃ rebuilt, rebuildAgainstChain pool.config (sourcesOf pool.entries l) base chain' verifier =
      .ok rebuilt ∧ Sound chain' rebuilt ∧ rebuilt.base = base) ∨
    ∃ halt, rebuildAgainstChain pool.config (sourcesOf pool.entries l) base chain' verifier =
      .error halt ∧ Refusal halt := by
  rw [rebuildAgainstChain]
  cases hnew : Mempool.new base pool.config with
  | error e =>
    refine .inr ⟨.error e, rfl, e, rfl, ?_⟩
    grind [Mempool.new]
  | ok empty =>
    obtain ⟨hsound, hbase, hconfig, -, hzero⟩ := sound_new hnew chain'
    have hstart : Rebuilding chain' base pool.config 0 empty := ⟨hsound, hbase, hconfig, hzero.le⟩
    have hbytes := sources_bytes_le hs hmem hn
    have htotal := hs.maxTotalBytes
    have hmax := pool.config.maxTotalBytes_lt
    have hroom : 0 + ((sourcesOf pool.entries l).map fun s => s.2.encode.length).sum < 2 ^ 64 := by
      omega
    rcases hstart.run verifier (fun s => source_txid hs) hroom with
      ⟨rebuilt, hok, hrebuilt⟩ | hfails
    · exact .inl ⟨rebuilt, hok, hrebuilt.sound, hrebuilt.base_eq⟩
    · exact .inr hfails

/-- What a block excludes: entries that spend what it spends, unless it has them, and all that
descends from them. -/
def Excluded (pool : Mempool) (confirmed : ExtTreeSet Hash256) (o : OutPoint) (k : Hash256) : Prop :=
  ∃ root, pool.spenders[o]? = some root ∧ root ∉ confirmed ∧
    (k = root ∨ k ∈ descendants pool.entries root)

theorem excludeConflicts_ok (hs : Sound chain pool) (confirmed excluded : ExtTreeSet Hash256)
    (tx : Transaction) : ∃ excluded', excludeConflicts pool confirmed excluded tx = .ok excluded' ∧
      ∀ k, k ∈ excluded' ↔ k ∈ excluded ∨
        ∃ o ∈ tx.inputs.map TxInput.outpoint, Excluded pool confirmed o k := by
  rw [excludeConflicts]
  induction tx.inputs generalizing excluded with
  | nil => exact ⟨excluded, rfl, by simp⟩
  | cons input inputs ih =>
    rw [List.foldlM_cons]
    simp only [List.map_cons, List.exists_mem_cons_iff]
    cases hspender : pool.spenders[input.outpoint]? with
    | none =>
      have hnone : ∀ k, ¬ Excluded pool confirmed input.outpoint k := by
        rintro k ⟨root, hroot, -⟩
        rw [hspender] at hroot
        cases hroot
      simp_all
    | some root =>
      have hwhen : ∀ k, Excluded pool confirmed input.outpoint k ↔
          root ∉ confirmed ∧ (k = root ∨ k ∈ descendants pool.entries root) := by
        intro k
        rw [Excluded, hspender]
        simp
      dsimp only
      split_ifs with hconfirmed
      · obtain ⟨excluded', hok, hiff⟩ := ih excluded
        refine ⟨excluded', hok, fun k => ?_⟩
        rw [hiff, hwhen]
        simp [hconfirmed]
      · obtain ⟨e, he, -⟩ := (hs.spenders _ _).mp hspender
        obtain ⟨branch, hbranch, hmem⟩ :=
          hs.linked.descendantClosure_ok ((mem_iff_lookup _ _).mpr ⟨e, he⟩)
        rw [hbranch, ok_bind]
        obtain ⟨excluded', hok, hiff⟩ := ih ((excluded.insert root).insertMany branch.toList)
        grind

theorem excluded_ok (hs : Sound chain pool) (confirmed excluded : ExtTreeSet Hash256)
    (txs : List Transaction) :
    ∃ excluded', txs.foldlM (excludeConflicts pool confirmed) excluded = .ok excluded' ∧
      ∀ k, k ∈ excluded' ↔ k ∈ excluded ∨
        ∃ tx ∈ txs, ∃ o ∈ tx.inputs.map TxInput.outpoint, Excluded pool confirmed o k := by
  induction txs generalizing excluded with
  | nil => exact ⟨excluded, rfl, by simp⟩
  | cons tx txs ih =>
    obtain ⟨excluded₁, hstep, hiff₁⟩ := excludeConflicts_ok hs confirmed excluded tx
    obtain ⟨excluded', hok, hiff⟩ := ih excluded₁
    refine ⟨excluded', ?_, fun k => ?_⟩
    · rw [List.foldlM_cons, hstep, ok_bind, hok]
    · rw [hiff, hiff₁, List.exists_mem_cons_iff, or_assoc]

/-- Ids of the transactions of a block. -/
def confirmedBy (block : Block) : ExtTreeSet Hash256 :=
  ExtTreeSet.ofList (block.transactions.map Transaction.txid)

/-- Both ways to reconcile rebuild the pool from some of its entries, in order. -/
theorem reconcileReorg_eq (hs : Sound chain pool) (base : ChainBase) (chain' : UtxoState)
    (verifier : SpendVerifier) : ∃ order, topologicalOrder pool.entries = .ok order ∧
      order.Nodup ∧ (∀ k, k ∈ order ↔ k ∈ pool.entries) ∧
      (order.Pairwise fun a b => ¬ ParentOf pool.entries a b) ∧
      perform (reconcileReorg base chain' verifier) pool = perform (do
        let rebuilt ← check (rebuildAgainstChain pool.config (sourcesOf pool.entries order) base
          chain' verifier)
        replaceWith rebuilt) pool := by
  obtain ⟨order, horder, hnodup, hmem, hordered⟩ := hs.linked.topologicalOrder_ok
  grind [reconcileReorg, perform_get_bind, perform_check_ok, sources_ok]

theorem reconcileActiveBlock_eq (hs : Sound chain pool) (block : Block) (base : ChainBase)
    (chain' : UtxoState) (verifier : SpendVerifier) :
    ∃ (order : List Hash256) (excluded : ExtTreeSet Hash256),
      topologicalOrder pool.entries = .ok order ∧
      (∀ k, k ∈ excluded ↔ ∃ tx ∈ block.transactions, ∃ o ∈ tx.inputs.map TxInput.outpoint,
        Excluded pool (confirmedBy block) o k) ∧
      perform (reconcileActiveBlock block base chain' verifier) pool = perform (do
        let rebuilt ← check (rebuildAgainstChain pool.config (sourcesOf pool.entries
          (order.filter fun txid => ¬ (txid ∈ confirmedBy block ∨ txid ∈ excluded))) base chain'
          verifier)
        replaceWith rebuilt) pool := by
  obtain ⟨order, horder, hnodup, hmem, -⟩ := hs.linked.topologicalOrder_ok
  obtain ⟨excluded, hexcluded, hiff⟩ := excluded_ok hs (confirmedBy block) ∅ block.transactions
  refine ⟨order, excluded, horder, fun k => ?_, ?_⟩
  · rw [hiff]
    simp
  · rw [reconcileActiveBlock, perform_get_bind, horder, perform_check_ok]
    grind [confirmedBy, perform_check_ok, sources_ok]

omit [Crypto] in
theorem replaceWith_eq (rebuilt : Mempool) : perform (replaceWith rebuilt) pool =
    (.ok { removed := pool.entries.keys.filter fun txid => txid ∉ rebuilt.entries
           retained := rebuilt.entries.size }, rebuilt) := rfl

/-- A reconciliation gives a pool in order on the new chain, or is refused. -/
theorem rebuild_outcome (hs : Sound chain pool) (hn : l.Nodup) (hmem : ∀ k ∈ l, k ∈ pool.entries)
    (base : ChainBase) (chain' : UtxoState) (verifier : SpendVerifier) :
    (∃ report rebuilt, perform (do
        let rebuilt ← check (rebuildAgainstChain pool.config (sourcesOf pool.entries l) base chain'
          verifier)
        replaceWith rebuilt) pool = (.ok report, rebuilt) ∧
      Sound chain' rebuilt ∧ rebuilt.base = base) ∨
    ∃ halt, perform (do
        let rebuilt ← check (rebuildAgainstChain pool.config (sourcesOf pool.entries l) base chain'
          verifier)
        replaceWith rebuilt) pool = (.error halt, pool) ∧ Refusal halt := by
  rcases rebuild_cases hs hn hmem base chain' verifier with
    ⟨rebuilt, hok, hsound, hbase⟩ | ⟨halt, herror, hrefusal⟩
  · rw [hok, perform_check_ok, replaceWith_eq]
    exact .inl ⟨_, rebuilt, rfl, hsound, hbase⟩
  · simp_all

theorem reconcileReorg_cases (hs : Sound chain pool) (base : ChainBase) (chain' : UtxoState)
    (verifier : SpendVerifier) :
    (∃ report rebuilt, perform (reconcileReorg base chain' verifier) pool = (.ok report, rebuilt) ∧
      Sound chain' rebuilt ∧ rebuilt.base = base) ∨
    ∃ halt, perform (reconcileReorg base chain' verifier) pool = (.error halt, pool) ∧
      Refusal halt := by
  obtain ⟨order, -, hnodup, hmem, -, heq⟩ := reconcileReorg_eq hs base chain' verifier
  rw [heq]
  exact rebuild_outcome hs hnodup (fun k hk => (hmem k).mp hk) base chain' verifier

theorem reconcileActiveBlock_cases (hs : Sound chain pool) (block : Block) (base : ChainBase)
    (chain' : UtxoState) (verifier : SpendVerifier) :
    (∃ report rebuilt, perform (reconcileActiveBlock block base chain' verifier) pool =
      (.ok report, rebuilt) ∧ Sound chain' rebuilt ∧ rebuilt.base = base) ∨
    ∃ halt, perform (reconcileActiveBlock block base chain' verifier) pool = (.error halt, pool) ∧
      Refusal halt := by
  obtain ⟨order, excluded, horder, -, heq⟩ :=
    reconcileActiveBlock_eq hs block base chain' verifier
  obtain ⟨order', horder', hnodup, hmem, -⟩ := hs.linked.topologicalOrder_ok
  obtain rfl := Except.ok.inj (horder.symm.trans horder')
  rw [heq]
  exact rebuild_outcome hs (hnodup.filter _) (fun k hk => (hmem k).mp (List.mem_of_mem_filter hk))
    base chain' verifier

end Reconcile

end Oregon.Pool
