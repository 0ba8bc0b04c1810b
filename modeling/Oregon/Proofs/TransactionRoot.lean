import Oregon.Lib.PairTree
import Oregon.Proofs.Canonical
import Oregon.Sanity.Sample

/-! The transaction root commits to the list of transactions. The levels follow a binary
tree whose leaves are the list; a leaf and a node are hashes of strings of different
lengths, so without a collision the root determines the tree. -/

namespace Oregon

open Lib

/-- A transaction that some decoder reads back from its encoding. -/
def Transaction.ReadsBack (tx : Transaction) : Prop :=
  ∃ limits, Transaction.decode tx.encode limits = .ok tx

/-- The limits that every length of a transaction meets. -/
def DecodeLimits.largest : DecodeLimits := ⟨-1, -1, -1, -1, -1, -1, -1⟩

theorem Transaction.Within.largest {limits : DecodeLimits} {tx : Transaction}
    (h : tx.Within limits) : tx.Within .largest := by
  have hle (n : ℕ) (limit : UInt64) (hn : n ≤ limit.toNat) : n ≤ (-1 : UInt64).toNat := by
    have := limit.toNat_lt
    have htop : (-1 : UInt64).toNat = 2 ^ 64 - 1 := by decide
    omega
  refine ⟨h.version, hle _ _ h.inputsLength, fun i hi => ?_, hle _ _ h.outputsLength,
    fun o ho => hle _ _ (h.outputs o ho)⟩
  obtain ⟨hcount, hitems⟩ := h.inputs i hi
  exact ⟨hle _ _ hcount, fun item hitem => hle _ _ (hitems item hitem)⟩

theorem Transaction.ReadsBack.decodeAll_largest {tx : Transaction} (h : tx.ReadsBack) :
    decodeAll (Transaction.decodeFrom .largest) tx.encode = .ok tx := by
  obtain ⟨limits, h⟩ := h
  have hmax := limits.maxObjectBytes.toNat_lt
  simp only [Transaction.decode, decodeAll, bind_eq_ok, ensure_eq_ok, exists_and_left,
    exists_const, pure_eq_ok] at h
  obtain ⟨hsize, r, hr, -, -⟩ := h
  have hwithin : tx.Within limits := by
    by_contra hnot
    obtain ⟨e, he⟩ := (transaction_reads limits tx [] 0 (by omega)).2 hnot
    rw [List.append_nil, hr] at he
    cases he
  exact decodeAll_encode (transaction_reads .largest tx) hwithin.largest (by omega)

theorem Transaction.ReadsBack.encode_inj {tx tx' : Transaction} (h : tx.ReadsBack)
    (h' : tx'.ReadsBack) (heq : tx.encode = tx'.encode) : tx = tx' := by
  have hread := h.decodeAll_largest
  rw [heq, h'.decodeAll_largest] at hread
  exact (Except.ok.inj hread).symm

section Strings

variable [Crypto]

def txidString (tx : Transaction) : Bytes := TX_DOMAIN ++ tx.encode

def leafString (tx : Transaction) : Bytes := MERKLE_LEAF_DOMAIN ++ Hash256.asBytes tx.txid

def nodeString (pair : Hash256 × Hash256) : Bytes :=
  MERKLE_NODE_DOMAIN ++ (Hash256.asBytes pair.1 ++ Hash256.asBytes pair.2)

/-- Every string that is hashed for the root of a list. -/
def rootStrings (transactions : List Transaction) : List Bytes :=
  transactions.map txidString ++ transactions.map leafString ++
    (roundPairs nodeHash transactions.length (transactions.map leafHash)).map nodeString

theorem leafString_ne_nodeString (tx : Transaction) (pair : Hash256 × Hash256) :
    leafString tx ≠ nodeString pair := by
  intro h
  have hlength := congrArg List.length h
  have hleaf : MERKLE_LEAF_DOMAIN.length = 22 := by decide
  have hnode : MERKLE_NODE_DOMAIN.length = 17 := by decide
  simp only [leafString, nodeString, Hash256.asBytes, List.length_append, List.length_reverse,
    leBytes_length, hleaf, hnode] at hlength
  omega

omit [Crypto] in
theorem nodeString_inj {p q : Hash256 × Hash256} (h : nodeString p = nodeString q) : p = q := by
  obtain ⟨hleft, hright⟩ := List.append_inj' (List.append_cancel_left h) (by simp [Hash256.asBytes])
  exact Prod.ext (asBytes_injective hleft) (asBytes_injective hright)

theorem nextLevel_eq (level : List Hash256) : nextLevel level = pairUp nodeHash level := by
  induction level using nextLevel.induct with
  | case1 left right rest ih => rw [nextLevel, pairUp, ih]
  | case2 => rfl
  | case3 => rfl

theorem reduceLevels_eq (n : ℕ) (level : List Hash256) :
    reduceLevels n level = pairRounds nodeHash n level := by
  induction n generalizing level with
  | zero => rfl
  | succ n ih => simp only [reduceLevels, pairRounds, nextLevel_eq, ih]

/-- The root is the fold of a tree over the list, and it hashes no other string. -/
theorem exists_rootTree {txs : List Transaction} (hne : txs ≠ []) :
    ∃ tree : PairTree Transaction, tree.leaves = txs ∧
      transactionRoot txs = .ok (tree.fold leafHash nodeHash) ∧
      ∀ pair ∈ tree.pairs leafHash nodeHash, nodeString pair ∈ rootStrings txs := by
  obtain ⟨tree, hleaves, hfold, hpairs⟩ := exists_pairTree hne leafHash nodeHash
  refine ⟨tree, hleaves, ?_, fun pair hpair => ?_⟩
  · rw [transactionRoot, reduceLevels_eq, hfold]
  · exact List.mem_append_right _ (List.mem_map_of_mem (hpairs pair hpair))

theorem leafHash_inj {S : Set Bytes} (hS : S.InjOn Crypto.blake3) {tx tx' : Transaction}
    (htx : tx.ReadsBack) (htx' : tx'.ReadsBack) (hleaf : leafString tx ∈ S)
    (hleaf' : leafString tx' ∈ S) (htxid : txidString tx ∈ S) (htxid' : txidString tx' ∈ S)
    (h : leafHash tx = leafHash tx') : tx = tx' := by
  have hstring : leafString tx = leafString tx' := hS hleaf hleaf' h
  have hid : tx.txid = tx'.txid := asBytes_injective (List.append_cancel_left hstring)
  have henc : txidString tx = txidString tx' := hS htxid htxid' hid
  exact htx.encode_inj htx' (List.append_cancel_left henc)

variable {S : Set Bytes} {txs txs' : List Transaction}

theorem transactionRoot_inj (hS : S.InjOn Crypto.blake3) (hne : txs ≠ []) (hne' : txs' ≠ [])
    (hback : ∀ tx ∈ txs, tx.ReadsBack) (hback' : ∀ tx ∈ txs', tx.ReadsBack)
    (hstrings : ∀ string ∈ rootStrings txs, string ∈ S)
    (hstrings' : ∀ string ∈ rootStrings txs', string ∈ S)
    (h : transactionRoot txs = transactionRoot txs') : txs = txs' := by
  obtain ⟨tree, rfl, hroot, hpairs⟩ := exists_rootTree hne
  obtain ⟨tree', rfl, hroot', hpairs'⟩ := exists_rootTree hne'
  rw [hroot, hroot', Except.ok.injEq] at h
  have hleaf {l : List Transaction} (hl : ∀ string ∈ rootStrings l, string ∈ S) {tx : Transaction}
      (htx : tx ∈ l) : leafString tx ∈ S ∧ txidString tx ∈ S :=
    ⟨hl _ (by simp [rootStrings, List.mem_map_of_mem htx]),
      hl _ (by simp [rootStrings, List.mem_map_of_mem htx])⟩
  rw [PairTree.fold_inj ?_ ?_ ?_ ?_ h]
  · intro tx htx tx' htx' heq
    exact leafHash_inj hS (hback tx htx) (hback' tx' htx') (hleaf hstrings htx).1
      (hleaf hstrings' htx').1 (hleaf hstrings htx).2 (hleaf hstrings' htx').2 heq
  · intro p hp q hq heq
    exact nodeString_inj (hS (hstrings _ (hpairs p hp)) (hstrings' _ (hpairs' q hq)) heq)
  · intro tx htx q hq heq
    exact leafString_ne_nodeString tx q
      (hS (hleaf hstrings htx).1 (hstrings' _ (hpairs' q hq)) heq)
  · intro tx htx p hp heq
    exact leafString_ne_nodeString tx p
      (hS (hleaf hstrings' htx).1 (hstrings _ (hpairs p hp)) heq)

/-- Two non-empty lists of canonically encoded transactions have a root each, and one root
only when they are one list; in particular no list keeps its root when a part of its end is
appended once more. -/
theorem transaction_root_binds_list (hS : S.InjOn Crypto.blake3) (hne : txs ≠ []) (hne' : txs' ≠ [])
    (hback : ∀ tx ∈ txs, tx.ReadsBack) (hback' : ∀ tx ∈ txs', tx.ReadsBack)
    (hstrings : ∀ string ∈ rootStrings txs, string ∈ S)
    (hstrings' : ∀ string ∈ rootStrings txs', string ∈ S) :
    (∃ root, transactionRoot txs = .ok root) ∧
    (transactionRoot txs = transactionRoot txs' ↔ txs = txs') ∧
    ∀ tail, tail <:+ txs → tail ≠ [] → (∀ string ∈ rootStrings (txs ++ tail), string ∈ S) →
      transactionRoot (txs ++ tail) ≠ transactionRoot txs := by
  refine ⟨?_, ⟨transactionRoot_inj hS hne hne' hback hback' hstrings hstrings', congrArg _⟩, ?_⟩
  · obtain ⟨tree, -, hroot, -⟩ := exists_rootTree hne
    exact ⟨_, hroot⟩
  · intro tail htail htailne hlonger heq
    have hback'' : ∀ tx ∈ txs ++ tail, tx.ReadsBack := fun tx htx =>
      hback tx ((List.mem_append.mp htx).elim id fun h => htail.subset h)
    have hlist := transactionRoot_inj hS (List.append_ne_nil_of_left_ne_nil hne tail) hne hback''
      hback hlonger hstrings heq
    exact htailne (List.append_right_eq_self.mp hlist)

end Strings

namespace Sample

/-- A polynomial in the bytes: apart on every string that the sample lists hash. -/
abbrev polynomial : Crypto where
  blake3 bs := bs.foldl (fun h b => h * 257 + BitVec.ofNat 256 b.toNat) 1
  randomx _ _ := 0

/-- The strings hashed for two transactions, and for these with the last one repeated. -/
def pairStrings : List Bytes :=
  @rootStrings polynomial [coinbase 1 1, coinbase 2 2] ++
    @rootStrings polynomial [coinbase 1 1, coinbase 2 2, coinbase 2 2]

theorem pairStrings_injOn : {s | s ∈ pairStrings}.InjOn polynomial.blake3 := by
  have h : ∀ s ∈ pairStrings, ∀ t ∈ pairStrings,
      polynomial.blake3 s = polynomial.blake3 t → s = t := by decide +kernel
  exact fun s hs t ht heq => h s hs t ht heq

end Sample

theorem transaction_root_binds_list_sample :
    @transactionRoot Sample.polynomial
        [Sample.coinbase 1 1, Sample.coinbase 2 2, Sample.coinbase 2 2] ≠
      @transactionRoot Sample.polynomial [Sample.coinbase 1 1, Sample.coinbase 2 2] := by
  have hback : ∀ tx ∈ [Sample.coinbase 1 1, Sample.coinbase 2 2, Sample.coinbase 2 2],
      tx.ReadsBack := by
    have h : ∀ tx ∈ [Sample.coinbase 1 1, Sample.coinbase 2 2, Sample.coinbase 2 2],
        Transaction.decode tx.encode .default = .ok tx := by decide +kernel
    exact fun tx htx => ⟨.default, h tx htx⟩
  have hbinds := @transaction_root_binds_list Sample.polynomial {s | s ∈ Sample.pairStrings}
    [Sample.coinbase 1 1, Sample.coinbase 2 2]
    [Sample.coinbase 1 1, Sample.coinbase 2 2, Sample.coinbase 2 2]
    Sample.pairStrings_injOn (by simp) (by simp)
    (fun tx htx => hback tx (by simp at htx ⊢; tauto)) hback
    (fun s hs => List.mem_append_left _ hs) (fun s hs => List.mem_append_right _ hs)
  exact hbinds.2.2 [Sample.coinbase 2 2] ⟨[Sample.coinbase 1 1], rfl⟩ (by simp)
    (fun s hs => List.mem_append_right _ hs)

end Oregon
