import Oregon.Sanity.StateSample
import Oregon.Sanity.StateUpdate

/-! The state as a map. A finite map from keys to values has a tree, its root is the
root of the map, and a write set turns the tree of a map into the tree of the written
map: reads at a root are lookups in its map, and roots are equal exactly when the maps
are. -/

namespace Oregon.ContractState

open Lib

/-- A finite map from keys to values. -/
abbrev StateMap := Std.ExtTreeMap Bytes Bytes

def StateMap.write (m : StateMap) (w : StateWrite) : StateMap :=
  match w.value with
  | some value => m.insert w.key value
  | none => m.erase w.key

/-- The map after some writes. -/
def StateMap.writeAll (m : StateMap) (writes : List StateWrite) : StateMap :=
  writes.foldl StateMap.write m

theorem lookup_write (m : StateMap) (w : StateWrite) (key : Bytes) :
    (m.write w)[key]? = if w.key = key then w.value else m[key]? := by
  grind [StateMap.write]

theorem lookup_writeAll_of_notMem {writes : List StateWrite} {m : StateMap} {key : Bytes}
    (h : ∀ w ∈ writes, w.key ≠ key) : (m.writeAll writes)[key]? = m[key]? := by
  induction writes generalizing m with
  | nil => rfl
  | cons w writes ih =>
    obtain ⟨hw, hrest⟩ := List.forall_mem_cons.mp h
    change ((m.write w).writeAll writes)[key]? = _
    rw [ih hrest, lookup_write, if_neg hw]

theorem lookup_writeAll_of_mem {writes : List StateWrite} {m : StateMap} {w : StateWrite}
    (hnodup : (writes.map StateWrite.key).Nodup) (h : w ∈ writes) :
    (m.writeAll writes)[w.key]? = w.value := by
  induction writes generalizing m with
  | nil => cases h
  | cons a writes ih =>
    obtain ⟨ha, hrest⟩ := List.nodup_cons.mp hnodup
    change ((m.write a).writeAll writes)[w.key]? = _
    rcases List.mem_cons.mp h with rfl | h
    · rw [lookup_writeAll_of_notMem, lookup_write, if_pos rfl]
      exact fun v hv heq => ha (List.mem_map.mpr ⟨v, hv, heq⟩)
    · exact ih hrest h

theorem mem_writeAll {writes : List StateWrite} {m : StateMap} {key : Bytes}
    (h : key ∈ m.writeAll writes) : key ∈ m ∨ ∃ w ∈ writes, w.key = key := by
  by_cases hw : ∃ w ∈ writes, w.key = key
  · exact Or.inr hw
  · grind [mem_iff_lookup, lookup_writeAll_of_notMem]

theorem StateWriteSet.pairwise (writeSet : StateWriteSet) :
    (writeSet.writes.map PreparedWrite.slot).Pairwise
      fun a b => ¬ Slots.Agree bitOf SMT_DEPTH 0 a.1 b.1 := by
  refine List.pairwise_map.mpr (writeSet.sorted.imp fun {a b} hlt hagree => ?_)
  grind [eq_of_agree, PreparedWrite.slot_path]

/-- The hashes that the branches of a source lead to from a root. -/
inductive Reachable (source : StateSource) (root : Hash256) : Hash256 → Prop where
  | root : Reachable source root root
  | left {h l r : Hash256} {depth : ℕ} (above : Reachable source root h)
      (found : source.getNode h = .ok (some (.branch depth l r))) : Reachable source root l
  | right {h l r : Hash256} {depth : ℕ} (above : Reachable source root h)
      (found : source.getNode h = .ok (some (.branch depth l r))) : Reachable source root r

section

variable [Crypto] (domain : CommitmentDomainId)

/-- The slots that a map fills. -/
def mapSlots (m : StateMap) : List (Hash256 × Option Leaf) :=
  m.toList.map fun e => (pathDigest domain e.1, some (pathDigest domain e.1, e.2))

noncomputable def stateTree (m : StateMap) : StateTree :=
  Slots.update bitOf 0 (mapSlots domain m) (Slots.empty Leaf SMT_DEPTH)

noncomputable def stateRoot (m : StateMap) : Hash256 := Slots.hash (digest domain) 0 (stateTree domain m)

/-- The strings that are hashed for the keys and the tree of a map, and for empty trees. -/
def stateStrings (m : StateMap) : Set Bytes :=
  {x | (∃ key ∈ m, x = keyString domain key) ∨
    ∃ i ∈ Slots.inputs (digest domain) 0 (stateTree domain m) ∪
      Slots.inputs (digest domain) 0 (Slots.empty Leaf SMT_DEPTH), x ∈ inputStrings domain i}

variable {domain} {S : Set Bytes} {m : StateMap}

theorem inputs_known {t : StateTree} (h : ∀ i ∈ Slots.inputs (digest domain) 0 t,
    inputStrings domain i ⊆ S) : Slots.inputs (digest domain) 0 t ⊆ known domain S := by
  intro i hi
  refine ⟨h i hi, ?_⟩
  rintro depth left right rfl
  have := (Slots.inputs_depth hi).2
  omega

theorem tree_known (h : stateStrings domain m ⊆ S) :
    Slots.inputs (digest domain) 0 (stateTree domain m) ⊆ known domain S :=
  inputs_known fun _ hi _ hx => h (Or.inr ⟨_, Or.inl hi, hx⟩)

theorem empty_known (h : stateStrings domain m ⊆ S) :
    Slots.inputs (digest domain) 0 (Slots.empty Leaf SMT_DEPTH) ⊆ known domain S :=
  inputs_known fun _ hi _ hx => h (Or.inr ⟨_, Or.inr hi, hx⟩)

theorem key_known (h : stateStrings domain m ⊆ S) {key : Bytes} (hkey : key ∈ m) :
    keyString domain key ∈ S := h (Or.inl ⟨key, hkey, rfl⟩)

/-- What a write puts at the end of the path of its key. -/
def StateWrite.slot (domain : CommitmentDomainId) (w : StateWrite) : Hash256 × Option Leaf :=
  (pathDigest domain w.key, w.value.map fun value => (pathDigest domain w.key, value))

theorem prepareWrite_ok {w : StateWrite} {p : PreparedWrite} (h : prepareWrite domain w = .ok p) :
    w.key.length ≤ MAX_STATE_KEY_BYTES ∧ p.slot = w.slot domain ∧ Hashed domain p := by
  simp only [prepareWrite, bind_eq_ok, pathKey_eq_ok] at h
  obtain ⟨_, ⟨hlength, rfl⟩, h⟩ := h
  cases hvalue : w.value with
  | none =>
    simp only [hvalue, pure_eq_ok, exists_eq_left', bind_eq_ok] at h
    obtain ⟨_, rfl, rfl⟩ := h
    exact ⟨hlength, by simp [StateWrite.slot, PreparedWrite.slot, hvalue],
      by rintro _ _ ⟨⟩⟩
  | some bytes =>
    simp only [hvalue, bind_eq_ok, valueHash_eq_ok, pure_eq_ok] at h
    obtain ⟨_, ⟨hbytes, rfl⟩, _, rfl, rfl⟩ := h
    refine ⟨hlength, by simp [StateWrite.slot, PreparedWrite.slot, hvalue], ?_⟩
    rintro _ _ ⟨⟩
    exact ⟨rfl, hbytes⟩

/-- An accepted write set has the slots of its writes, in order. -/
theorem StateWriteSet.new_ok {writes : List StateWrite} {writeSet : StateWriteSet}
    (h : StateWriteSet.new domain writes = .ok writeSet) :
    writeSet.domain = domain ∧ (∀ w ∈ writes, w.key.length ≤ MAX_STATE_KEY_BYTES) ∧
      (∀ p ∈ writeSet.writes, Hashed domain p) ∧
      (writeSet.writes.map PreparedWrite.slot).Perm (writes.map (StateWrite.slot domain)) := by
  simp only [StateWriteSet.new, bind_eq_ok, ensure_eq_ok, exists_and_left, exists_const] at h
  obtain ⟨-, prepared, hprepared, h⟩ := h
  split at h
  · cases h
  · obtain rfl := pure_eq_ok.mp h
    have hall := mapM_eq_ok.mp hprepared
    have hslots : prepared.map PreparedWrite.slot = writes.map (StateWrite.slot domain) ∧
        (∀ w ∈ writes, w.key.length ≤ MAX_STATE_KEY_BYTES) ∧ ∀ p ∈ prepared, Hashed domain p := by
      clear * - hall
      induction hall with
      | nil => simp
      | cons hab _ ih =>
        obtain ⟨hlength, hslot, hhashed⟩ := prepareWrite_ok hab
        simp_all
    have hperm := List.perm_insertionSort (fun a b : PreparedWrite => a.path ≤ b.path) prepared
    grind

theorem StateWriteSet.nodup {writes : List StateWrite} {writeSet : StateWriteSet}
    (h : StateWriteSet.new domain writes = .ok writeSet) :
    (writes.map StateWrite.key).Nodup := by
  obtain ⟨-, -, -, hperm⟩ := StateWriteSet.new_ok h
  have hpair := (hperm.pairwise_iff fun {a b} hab hba => hab fun i hi hlt =>
    (hba i hi hlt).symm).mp writeSet.pairwise
  rw [List.pairwise_map] at hpair
  refine List.pairwise_map.mpr (hpair.imp fun {a b} hab heq => hab fun i _ _ => ?_)
  rw [StateWrite.slot, StateWrite.slot, heq]

theorem prepareWrite_complete {w : StateWrite} (hkey : w.key.length ≤ MAX_STATE_KEY_BYTES)
    (hvalue : ∀ v, w.value = some v → v.length ≤ MAX_STATE_VALUE_BYTES) :
    ∃ p, prepareWrite domain w = .ok p ∧ p.path = pathDigest domain w.key := by
  cases hw : w.value with
  | none =>
    refine ⟨⟨pathDigest domain w.key, .delete⟩, ?_, rfl⟩
    rw [prepareWrite, pathKey_ok hkey, ok_bind, hw]
    rfl
  | some bytes =>
    refine ⟨⟨pathDigest domain w.key, .put bytes (valueDigest domain bytes)⟩, ?_, rfl⟩
    simp only [prepareWrite, pathKey_ok hkey, ok_bind, hw, valueHash_ok (hvalue bytes hw)]
    rfl

omit [Crypto] in
theorem findDuplicate_eq_none {l : List PreparedWrite} (h : (l.map PreparedWrite.path).Nodup) :
    findDuplicate l = none := by
  induction l with
  | nil => rfl
  | cons a l ih =>
    obtain ⟨ha, hrest⟩ := List.nodup_cons.mp h
    cases l with
    | nil => rfl
    | cons b l =>
      rw [findDuplicate, if_neg fun heq => ha (List.mem_map.mpr ⟨b, List.mem_cons_self, heq.symm⟩)]
      exact ih hrest

/-- Writes within the bounds whose keys go to different places are accepted. -/
theorem StateWriteSet.new_complete {writes : List StateWrite}
    (hcount : writes.length ≤ MAX_STATE_WRITE_SET_ENTRIES)
    (hkeys : ∀ w ∈ writes, w.key.length ≤ MAX_STATE_KEY_BYTES)
    (hvalues : ∀ w ∈ writes, ∀ v, w.value = some v → v.length ≤ MAX_STATE_VALUE_BYTES)
    (hapart : (writes.map fun w => pathDigest domain w.key).Nodup) :
    ∃ writeSet, StateWriteSet.new domain writes = .ok writeSet := by
  obtain ⟨prepared, hprepared, hpaths⟩ : ∃ prepared, writes.mapM (prepareWrite domain) = .ok prepared ∧
      prepared.map PreparedWrite.path = writes.map fun w => pathDigest domain w.key := by
    simp only [mapM_eq_ok]
    clear hcount hapart
    induction writes with
    | nil => exact ⟨[], .nil, rfl⟩
    | cons w writes ih =>
      obtain ⟨hkey, hkeys⟩ := List.forall_mem_cons.mp hkeys
      obtain ⟨hvalue, hvalues⟩ := List.forall_mem_cons.mp hvalues
      obtain ⟨p, hp, hpath⟩ := prepareWrite_complete hkey hvalue
      obtain ⟨prepared, hprepared, hpaths⟩ := ih hkeys hvalues
      exact ⟨p :: prepared, .cons hp hprepared, by rw [List.map_cons, List.map_cons, hpath, hpaths]⟩
  have hnone : findDuplicate (prepared.insertionSort fun a b => a.path ≤ b.path) = none := by
    refine findDuplicate_eq_none ?_
    rw [((List.perm_insertionSort _ prepared).map PreparedWrite.path).nodup_iff, hpaths]
    exact hapart
  rw [StateWriteSet.new, ensure_ok hcount, ok_bind, hprepared, ok_bind]
  dsimp only
  split
  · next hsome => rw [hnone] at hsome; cases hsome
  · exact ⟨_, rfl⟩

variable (hfree : S.InjOn Crypto.blake3)

include hfree

theorem mapSlots_pairwise (hkeys : ∀ key ∈ m, keyString domain key ∈ S) :
    (mapSlots domain m).Pairwise fun a b => ¬ Slots.Agree bitOf SMT_DEPTH 0 a.1 b.1 := by
  rw [mapSlots, List.pairwise_map]
  have hnodup : m.toList.Pairwise fun a b => a.1 ≠ b.1 :=
    List.pairwise_map.mp (nodup_toList_keys m)
  refine hnodup.imp_of_mem fun {a b} ha hb hne hagree => hne ?_
  grind [pathDigest_inj, eq_of_agree]

/-- The leaf at the end of a key's path is that of the key. -/
theorem get_stateTree (hkeys : ∀ key ∈ m, keyString domain key ∈ S) {key : Bytes}
    (hkey : keyString domain key ∈ S) :
    Slots.get (bitOf (pathDigest domain key)) 0 (stateTree domain m) =
      m[key]?.map fun value => (pathDigest domain key, value) := by
  cases hvalue : m[key]? with
  | some value =>
    have hmem : (pathDigest domain key, some (pathDigest domain key, value)) ∈ mapSlots domain m :=
      List.mem_map.mpr ⟨(key, value), Std.ExtTreeMap.mem_toList_iff_getElem?_eq_some.mpr hvalue, rfl⟩
    exact Slots.get_update_of_mem (mapSlots_pairwise hfree hkeys) hmem fun _ _ _ => rfl
  | none =>
    rw [stateTree, Slots.get_update_of_forall, Slots.get_empty]
    · rfl
    · intro w hw hagree
      obtain ⟨e, he, rfl⟩ := List.mem_map.mp hw
      grind [pathDigest_inj, eq_of_agree]

theorem get_stateTree_eq_some (hkeys : ∀ key ∈ m, keyString domain key ∈ S) {path : Hash256}
    {l : Leaf} (h : Slots.get (bitOf path) 0 (stateTree domain m) = some l) :
    ∃ key value, m[key]? = some value ∧ pathDigest domain key = path ∧ l = (path, value) := by
  by_cases hkey : ∃ key ∈ m, pathDigest domain key = path
  · obtain ⟨key, hkey, rfl⟩ := hkey
    rw [get_stateTree hfree hkeys (hkeys key hkey)] at h
    grind
  · rw [stateTree, Slots.get_update_of_forall, Slots.get_empty] at h
    · cases h
    · intro w hw hagree
      obtain ⟨e, he, rfl⟩ := List.mem_map.mp hw
      grind [eq_of_agree]

/-- A write set turns the tree of a map into the tree of the written map. -/
theorem update_stateTree {writes : List StateWrite} {writeSet : StateWriteSet}
    (hnew : StateWriteSet.new domain writes = .ok writeSet)
    (hkeys : ∀ key ∈ m, keyString domain key ∈ S)
    (hwrites : ∀ w ∈ writes, keyString domain w.key ∈ S) :
    Slots.update bitOf 0 (writeSet.writes.map PreparedWrite.slot) (stateTree domain m) =
      stateTree domain (m.writeAll writes) := by
  obtain ⟨-, -, -, hperm⟩ := StateWriteSet.new_ok hnew
  have hkeys' : ∀ key ∈ m.writeAll writes, keyString domain key ∈ S := by
    intro key hkey
    rcases mem_writeAll hkey with hkey | ⟨w, hw, rfl⟩
    · exact hkeys key hkey
    · exact hwrites w hw
  refine Slots.ext_get (d := 0) fun bits => ?_
  obtain ⟨path, hpath⟩ := exists_path bits
  have hbits : ∀ t : StateTree, Slots.get bits 0 t = Slots.get (bitOf path) 0 t := fun t =>
    Slots.get_congr t fun i _ hi => (hpath i (by omega)).symm
  rw [hbits, hbits]
  by_cases hwritten : ∃ w ∈ writes, pathDigest domain w.key = path
  · obtain ⟨w, hw, rfl⟩ := hwritten
    have hslot : w.slot domain ∈ writeSet.writes.map PreparedWrite.slot :=
      hperm.mem_iff.mpr (List.mem_map_of_mem hw)
    rw [get_stateTree hfree hkeys' (hwrites w hw),
      lookup_writeAll_of_mem (StateWriteSet.nodup hnew) hw]
    exact Slots.get_update_of_mem writeSet.pairwise hslot fun _ _ _ => rfl
  · rw [Slots.get_update_of_forall]
    · -- the keys on this path are not written
      refine Option.ext fun l => ⟨fun h => ?_, fun h => ?_⟩
      · obtain ⟨key, value, hvalue, rfl, rfl⟩ := get_stateTree_eq_some hfree hkeys h
        rw [get_stateTree hfree hkeys' (hkeys key ((mem_iff_lookup m key).mpr ⟨value, hvalue⟩)),
          lookup_writeAll_of_notMem fun w hw heq => hwritten ⟨w, hw, by rw [heq]⟩, hvalue]
        rfl
      · obtain ⟨key, value, hvalue, rfl, rfl⟩ := get_stateTree_eq_some hfree hkeys' h
        have hkey := hkeys' key ((mem_iff_lookup _ key).mpr ⟨value, hvalue⟩)
        rw [lookup_writeAll_of_notMem fun w hw heq => hwritten ⟨w, hw, by rw [heq]⟩] at hvalue
        rw [get_stateTree hfree hkeys hkey, hvalue]
        rfl
    · intro a ha hagree
      obtain ⟨w, hw, rfl⟩ := List.mem_map.mp (hperm.mem_iff.mp ha)
      exact hwritten ⟨w, hw, eq_of_agree hagree⟩

/-- Reads at the root of a map are lookups in its tree, along any path. -/
theorem readFrom_stateTree {source : StateSource} (hstrings : stateStrings domain m ⊆ S)
    (hstored : Stored source domain 0 (stateTree domain m)) (path : Hash256) :
    readFrom source domain path SMT_DEPTH 0 (stateRoot domain m) =
      .ok ((Slots.get (bitOf path) 0 (stateTree domain m)).map Prod.snd) := by
  refine readFrom_ok (digest_injOn hfree) (empty_known hstrings) (Nat.zero_add _)
    (tree_known hstrings) hstored fun l hl => ?_
  obtain ⟨_, _, -, -, rfl⟩ := get_stateTree_eq_some hfree (fun _ => key_known hstrings) hl
  rfl

theorem readValue_stateTree {source : StateSource} (hstrings : stateStrings domain m ⊆ S)
    (hstored : Stored source domain 0 (stateTree domain m)) {key : Bytes}
    (hlength : key.length ≤ MAX_STATE_KEY_BYTES) (hkey : keyString domain key ∈ S) :
    readValue source ⟨domain, stateRoot domain m⟩ key = .ok m[key]? := by
  simp only [readValue, pathKey_ok hlength, ok_bind, readFrom_stateTree hfree hstrings hstored,
    get_stateTree hfree (fun _ => key_known hstrings) hkey, Option.map_map, Function.comp_def,
    Option.map_id_fun']
  rfl

/-- A write set that was accepted is applied, and the tree of the written map is then stored. -/
theorem applyWriteSet_ok {source : StateSource} {writes : List StateWrite}
    {writeSet : StateWriteSet} (hstrings : stateStrings domain m ⊆ S)
    (hstrings' : stateStrings domain (m.writeAll writes) ⊆ S)
    (hwrites : ∀ w ∈ writes, keyString domain w.key ∈ S) (hhonest : source.Honest domain S)
    (hstored : Stored source domain 0 (stateTree domain m))
    (hnew : StateWriteSet.new domain writes = .ok writeSet) :
    ∃ t, applyWriteSet source ⟨domain, stateRoot domain m⟩ writeSet = .ok t ∧
      t.newRoot = stateRoot domain (m.writeAll writes) ∧
      Applied source domain S 0 (stateTree domain m) (stateTree domain (m.writeAll writes)) ⟨∅, ∅⟩
        ⟨t.nodes, t.values⟩ := by
  obtain ⟨hdomain, -, hhashed, -⟩ := StateWriteSet.new_ok hnew
  have htree := update_stateTree hfree hnew (fun _ => key_known hstrings) hwrites
  have hbatch : Batch domain 0 (stateTree domain m) writeSet.writes :=
    ⟨writeSet.sorted, fun _ _ _ _ i hi => absurd hi (Nat.not_lt_zero i), hhashed,
      fun w _ l hl => by
        obtain ⟨_, _, -, -, rfl⟩ := get_stateTree_eq_some hfree (fun _ => key_known hstrings) hl
        rfl⟩
  have hfaithful : Faithful domain S ⟨∅, ∅⟩ := ⟨by simp, by simp⟩
  obtain ⟨b, hrun, happlied⟩ := applySubtree_ok hfree (empty_known hstrings) (Nat.zero_add _) hhonest
    hstored (tree_known hstrings) (htree ▸ tree_known hstrings') hfaithful hbatch
  rw [htree] at hrun happlied
  rw [applyWriteSet, ensure_ok hdomain.symm,
    ok_bind]
  split_ifs with hwritesNil
  · rw [hwritesNil, applySubtree_nil, Except.ok.injEq, Prod.mk.injEq] at hrun
    obtain ⟨hroot, rfl⟩ := hrun
    exact ⟨_, rfl, hroot, happlied⟩
  · refine ⟨⟨domain, stateRoot domain m, stateRoot domain (m.writeAll writes), b.nodes, b.values⟩,
      ?_, rfl, happlied⟩
    rw [stateRoot, hrun, ok_bind]
    rfl

omit hfree in
theorem stateTree_empty : stateTree domain ∅ = Slots.empty Leaf SMT_DEPTH := by
  rw [stateTree, mapSlots, show (∅ : StateMap).toList = [] from rfl, List.map_nil, Slots.update_nil]

omit hfree in
theorem stateRoot_empty : stateRoot domain ∅ = emptyHashes domain 0 := by
  rw [stateRoot, stateTree_empty, emptyHashes_eq (Nat.zero_add _)]

theorem stateRoot_inj {m' : StateMap} (hstrings : stateStrings domain m ⊆ S)
    (hstrings' : stateStrings domain m' ⊆ S) :
    stateRoot domain m = stateRoot domain m' ↔ m = m' := by
  refine ⟨fun h => Std.ExtTreeMap.ext_getElem? fun key => ?_, fun h => by rw [h]⟩
  have htree : stateTree domain m = stateTree domain m' :=
    Slots.hash_injective (digest_injOn hfree) (tree_known hstrings) (tree_known hstrings') h
  by_cases hkey : key ∈ m ∨ key ∈ m'
  · have hmem : keyString domain key ∈ S := hkey.elim (key_known hstrings) (key_known hstrings')
    have hget := get_stateTree hfree (fun _ => key_known hstrings) hmem
    grind [get_stateTree, key_known]
  · simp_all

omit hfree in
/-- The hashes of a stored tree are reachable from its root. -/
theorem Stored.reachable {source : StateSource} {root h : Hash256} {n d : ℕ} {t : Slots Leaf n}
    (hstored : Stored source domain d t)
    (hroot : Reachable source root (Slots.hash (digest domain) d t))
    (hoccurs : Slots.Occurs (digest domain) d t h) : Reachable source root h := by
  induction n generalizing d with
  | zero => exact hoccurs.2 ▸ hroot
  | succ n ih =>
    rcases hstored with rfl | ⟨hnode, hleft, hright⟩
    · exact absurd hoccurs Slots.not_occurs_empty
    · rcases hoccurs with ⟨-, rfl⟩ | hoccurs | hoccurs
      · exact hroot
      · exact ih hleft (.left hroot hnode) hoccurs
      · exact ih hright (.right hroot hnode) hoccurs

section Sample

open Oregon.ContractState.Sample

variable {table : Table}

omit hfree in
/-- The strings of the maps over a table are those of the table. -/
theorem stateStrings_table (hhash : Crypto.blake3 = tableHash table) (hsize : table.length ≤ 200)
    (hm : ∀ key value, m[key]? = some value → (key, value) ∈ table) :
    stateStrings domain m ⊆ tableStrings table := by
  have hkeys : ∀ key ∈ m, keyString domain key ∈ tableStrings table := by
    intro key hkey
    obtain ⟨value, hvalue⟩ := (mem_iff_lookup m key).mp hkey
    exact ⟨domain, .key (hm key value hvalue)⟩
  have hover : Over table domain 0 (stateTree domain m) := by
    intro bits l hl
    obtain ⟨path, hpath⟩ := exists_path bits
    rw [Slots.get_congr _ fun i _ hi => (hpath i (by omega)).symm] at hl
    obtain ⟨key, value, hvalue, rfl, rfl⟩ :=
      get_stateTree_eq_some (hhash ▸ tableStrings_injOn hsize) hkeys hl
    grind [pathDigest_table]
  have hempty : Over table domain 0 (Slots.empty Leaf SMT_DEPTH) := by
    intro bits l hl
    rw [Slots.get_empty] at hl
    cases hl
  have hdepth : 0 + SMT_DEPTH = 256 := by rw [SMT_DEPTH]
  obtain ⟨_, -, -, htree⟩ := hash_over hhash hsize hdepth hover
  obtain ⟨_, -, -, hemptyTree⟩ := hash_over hhash hsize hdepth hempty
  rintro x (⟨key, hkey, rfl⟩ | ⟨i, hi | hi, hx⟩)
  · exact hkeys key hkey
  · exact htree i hi hx
  · exact hemptyTree i hi hx

end Sample

/-- The source after a transition. -/
def StateSource.after (source : StateSource) (t : StateTransition) : StateSource :=
  source.extend t.nodes t.values

theorem StateSource.Honest.after {source : StateSource} {t : StateTransition}
    (h : source.Honest domain S) (ht : Faithful domain S ⟨t.nodes, t.values⟩) :
    (source.after t).Honest domain S := by
  intro value hvalue
  simp only [StateSource.after, StateSource.extend]
  cases hfound : t.values[valueDigest domain value]? with
  | none => exact h value hvalue
  | some found =>
    obtain ⟨hfoundString, hdigest⟩ := ht.values _ _ hfound
    rw [valueDigest_inj hfree hfoundString hvalue hdigest]
    exact Or.inr rfl

/-- The state is a persistent map. An accepted write set is applied; at the new root the
written keys have their new values and all others the old ones, reads at the old root
stay the same, and the nodes that are emitted belong to the new tree. -/
theorem write_set_writes_map {source : StateSource} {writes : List StateWrite}
    {writeSet : StateWriteSet} (hstrings : stateStrings domain m ⊆ S)
    (hstrings' : stateStrings domain (m.writeAll writes) ⊆ S)
    (hwrites : ∀ w ∈ writes, keyString domain w.key ∈ S) (hhonest : source.Honest domain S)
    (hstored : Stored source domain 0 (stateTree domain m))
    (hnew : StateWriteSet.new domain writes = .ok writeSet) :
    ∃ t, applyWriteSet source ⟨domain, stateRoot domain m⟩ writeSet = .ok t ∧
      (∀ key, key.length ≤ MAX_STATE_KEY_BYTES → keyString domain key ∈ S →
        readValue (source.after t) ⟨domain, t.newRoot⟩ key =
          .ok (match writes.find? fun w => w.key = key with
            | some w => w.value
            | none => m[key]?)) ∧
      (∀ key, readValue (source.after t) ⟨domain, stateRoot domain m⟩ key =
        readValue source ⟨domain, stateRoot domain m⟩ key) ∧
      ∀ h, h ∈ t.nodes → Reachable (source.after t) t.newRoot h := by
  obtain ⟨t, hrun, hroot, happlied⟩ :=
    applyWriteSet_ok hfree hstrings hstrings' hwrites hhonest hstored hnew
  have hold : Stored (source.after t) domain 0 (stateTree domain m) :=
    hstored.carry (happlied.faithful.carries_source hfree) (tree_known hstrings)
  have hstored' : Stored (source.after t) domain 0 (stateTree domain (m.writeAll writes)) :=
    happlied.stored
  refine ⟨t, hrun, fun key hlength hkey => ?_, fun key => ?_, fun h hh => ?_⟩
  · rw [hroot, readValue_stateTree hfree hstrings' hstored' hlength hkey]
    split
    · next w hfind =>
      obtain rfl : w.key = key := by simpa using List.find?_some hfind
      rw [lookup_writeAll_of_mem (StateWriteSet.nodup hnew) (List.mem_of_find?_eq_some hfind)]
    · next hfind =>
      rw [lookup_writeAll_of_notMem fun w hw heq => ?_]
      simpa [heq] using List.find?_eq_none.mp hfind w hw
  · simp only [readValue, readFrom_stateTree hfree hstrings hold,
      readFrom_stateTree hfree hstrings hstored]
  · rw [hroot]
    refine hstored'.reachable .root ((happlied.emitted h hh).resolve_left ?_)
    exact Std.ExtTreeMap.not_mem_empty

end

namespace Sample

def nothing : StateSource := ⟨fun _ => .ok none, fun _ => .ok none⟩

def twoEntries : Table := [([1], [2]), ([3], [4])]

scoped instance crypto : Crypto := tableCrypto twoEntries

def putOne : List StateWrite := [⟨[1], some [2]⟩]

def deleteOne : List StateWrite := [⟨[1], none⟩]

/-- The first key goes and the second comes. -/
def exchange : List StateWrite := [⟨[1], none⟩, ⟨[3], some [4]⟩]

/-- The map with the first entry. -/
def oneMap : StateMap := StateMap.writeAll ∅ putOne

theorem free : (tableStrings twoEntries).InjOn Crypto.blake3 := tableStrings_injOn (by decide)

variable {domain : CommitmentDomainId}

theorem nothing_honest {S : Set Bytes} : nothing.Honest domain S := fun _ _ => Or.inl rfl

theorem putOne_accepted : ∃ writeSet, StateWriteSet.new domain putOne = .ok writeSet :=
  StateWriteSet.new_complete (by decide) (by decide) (by simp [putOne, MAX_STATE_VALUE_BYTES])
    (by simp [putOne])

theorem deleteOne_accepted : ∃ writeSet, StateWriteSet.new domain deleteOne = .ok writeSet :=
  StateWriteSet.new_complete (by decide) (by decide) (by simp [deleteOne]) (by simp [deleteOne])

theorem exchange_accepted : ∃ writeSet, StateWriteSet.new .evm exchange = .ok writeSet :=
  StateWriteSet.new_complete (by decide) (by decide) (by simp [exchange, MAX_STATE_VALUE_BYTES])
    (by decide +kernel)

theorem writeAll_table {m : StateMap} {writes : List StateWrite}
    (hm : ∀ key value, m[key]? = some value → (key, value) ∈ twoEntries)
    (hwrites : ∀ w ∈ writes, ∀ value ∈ w.value, (w.key, value) ∈ twoEntries) :
    ∀ key value, (m.writeAll writes)[key]? = some value → (key, value) ∈ twoEntries := by
  induction writes generalizing m with
  | nil => exact hm
  | cons w writes ih =>
    refine ih (m := m.write w) (fun key value h => ?_) fun w' hw' => hwrites w' (.tail _ hw')
    rw [lookup_write] at h
    split_ifs at h with hkey
    · exact hkey ▸ hwrites w (.head _) value h
    · exact hm key value h

theorem oneMap_table (key value : Bytes) : oneMap[key]? = some value → (key, value) ∈ twoEntries :=
  writeAll_table (by simp) (by simp [putOne, twoEntries]) key value

theorem oneMap_lookup : oneMap[([1] : Bytes)]? = some [2] :=
  lookup_writeAll_of_mem (by decide) (.head _)

theorem empty_strings : stateStrings domain ∅ ⊆ tableStrings twoEntries :=
  stateStrings_table rfl (by decide) (by simp)

theorem oneMap_strings : stateStrings domain oneMap ⊆ tableStrings twoEntries :=
  stateStrings_table rfl (by decide) oneMap_table

theorem exchange_strings : stateStrings domain (oneMap.writeAll exchange) ⊆ tableStrings twoEntries :=
  stateStrings_table rfl (by decide) (writeAll_table oneMap_table (by simp [exchange, twoEntries]))

theorem putOne_keys : ∀ w ∈ putOne, keyString domain w.key ∈ tableStrings twoEntries := by
  intro w hw
  obtain rfl := List.mem_singleton.mp hw
  exact ⟨domain, TableString.key (e := ([1], [2])) (.head _)⟩

theorem exchange_keys : ∀ w ∈ exchange, keyString domain w.key ∈ tableStrings twoEntries := by
  intro w hw
  rcases List.mem_pair.mp hw with rfl | rfl
  · exact ⟨domain, TableString.key (e := ([1], [2])) (.head _)⟩
  · exact ⟨domain, TableString.key (e := ([3], [4])) (.tail _ (.head _))⟩

/-- What is stored when the first entry is put into an empty state. -/
theorem oneMap_stored : ∃ source : StateSource, source.Honest domain (tableStrings twoEntries) ∧
    Stored source domain 0 (stateTree domain oneMap) := by
  obtain ⟨writeSet, hnew⟩ : ∃ writeSet, StateWriteSet.new domain putOne = .ok writeSet :=
    putOne_accepted
  have hempty : Stored nothing domain 0 (stateTree domain ∅) := stateTree_empty ▸ .empty _ _
  obtain ⟨t, -, -, happlied⟩ :=
    applyWriteSet_ok free empty_strings oneMap_strings putOne_keys nothing_honest hempty hnew
  exact ⟨_, nothing_honest.after free happlied.faithful, happlied.stored⟩

end Sample

open Oregon.ContractState.Sample in
/-- One entry takes the place of another; the old root still shows the old one. -/
theorem write_set_writes_map_sample : ∃ source writeSet t,
    StateWriteSet.new .evm exchange = .ok writeSet ∧
    applyWriteSet source ⟨.evm, stateRoot .evm oneMap⟩ writeSet = .ok t ∧
    readValue (source.after t) ⟨.evm, t.newRoot⟩ [1] = .ok none ∧
    readValue (source.after t) ⟨.evm, t.newRoot⟩ [3] = .ok (some [4]) ∧
    readValue (source.after t) ⟨.evm, stateRoot .evm oneMap⟩ [1] = .ok (some [2]) := by
  obtain ⟨source, hhonest, hstored⟩ := oneMap_stored
  obtain ⟨writeSet, hnew⟩ := exchange_accepted
  obtain ⟨t, hrun, hread, hold, -⟩ :=
    write_set_writes_map free oneMap_strings exchange_strings exchange_keys hhonest hstored hnew
  have hone : keyString .evm [1] ∈ tableStrings twoEntries := exchange_keys _ (.head _)
  refine ⟨source, writeSet, t, hnew, hrun, hread [1] (by decide) hone,
    hread [3] (by decide) (exchange_keys _ (.tail _ (.head _))), ?_⟩
  rw [hold, readValue_stateTree free oneMap_strings hstored (by decide) hone, oneMap_lookup]

section

variable [Crypto] {domain : CommitmentDomainId} {S : Set Bytes} {m : StateMap}
  (hfree : S.InjOn Crypto.blake3)

include hfree

/-- Write sets one after the other, each on the source and the root that the one before left. -/
def applyBatches (domain : CommitmentDomainId) :
    StateSource → Hash256 → List (List StateWrite) → Except StateError (StateSource × Hash256)
  | source, root, [] => pure (source, root)
  | source, root, writes :: batches => do
    let writeSet ← StateWriteSet.new domain writes
    let t ← applyWriteSet source ⟨domain, root⟩ writeSet
    applyBatches domain (source.after t) t.newRoot batches

/-- The strings that are hashed while batches are applied to a map. -/
def historyStrings (domain : CommitmentDomainId) : StateMap → List (List StateWrite) → Set Bytes
  | m, [] => stateStrings domain m
  | m, writes :: batches => stateStrings domain m ∪ {x | ∃ w ∈ writes, x = keyString domain w.key} ∪
      historyStrings domain (m.writeAll writes) batches

omit hfree in
theorem stateStrings_history (m : StateMap) (batches : List (List StateWrite)) :
    stateStrings domain m ⊆ historyStrings domain m batches := by
  cases batches with
  | nil => exact subset_rfl
  | cons writes batches => exact fun x hx => Or.inl (Or.inl hx)

omit hfree in
theorem history_last {m : StateMap} {batches : List (List StateWrite)}
    (h : historyStrings domain m batches ⊆ S) :
    stateStrings domain (batches.foldl StateMap.writeAll m) ⊆ S := by
  induction batches generalizing m with
  | nil => exact h
  | cons writes batches ih => exact ih fun x hx => h (Or.inr hx)

/-- Accepted batches lead from the root of a map to the root of the written map. -/
theorem applyBatches_ok {source : StateSource} {batches : List (List StateWrite)}
    (hstrings : historyStrings domain m batches ⊆ S) (hhonest : source.Honest domain S)
    (hstored : Stored source domain 0 (stateTree domain m))
    (haccepted : ∀ writes ∈ batches, ∃ writeSet, StateWriteSet.new domain writes = .ok writeSet) :
    ∃ source', applyBatches domain source (stateRoot domain m) batches =
        .ok (source', stateRoot domain (batches.foldl StateMap.writeAll m)) ∧
      Stored source' domain 0 (stateTree domain (batches.foldl StateMap.writeAll m)) := by
  induction batches generalizing m source with
  | nil => exact ⟨source, rfl, hstored⟩
  | cons writes batches ih =>
    obtain ⟨⟨writeSet, hnew⟩, hrest⟩ := List.forall_mem_cons.mp haccepted
    have hm : stateStrings domain m ⊆ S := (stateStrings_history m (writes :: batches)).trans hstrings
    have hlater : historyStrings domain (m.writeAll writes) batches ⊆ S :=
      fun x hx => hstrings (Or.inr hx)
    obtain ⟨t, hrun, hroot, happlied⟩ := applyWriteSet_ok hfree hm
      ((stateStrings_history _ batches).trans hlater)
      (fun w hw => hstrings (Or.inl (Or.inr ⟨w, hw, rfl⟩))) hhonest hstored hnew
    obtain ⟨source', hruns, hstored'⟩ := ih hlater (hhonest.after hfree happlied.faithful)
      happlied.stored hrest
    grind [applyBatches, ok_bind]

theorem applyBatches_empty {source : StateSource} {batches : List (List StateWrite)}
    (hstrings : historyStrings domain ∅ batches ⊆ S) (hhonest : source.Honest domain S)
    (haccepted : ∀ writes ∈ batches, ∃ writeSet, StateWriteSet.new domain writes = .ok writeSet) :
    ∃ final, applyBatches domain source (emptyHashes domain 0) batches =
        .ok (final, stateRoot domain (batches.foldl StateMap.writeAll ∅)) ∧
      Stored final domain 0 (stateTree domain (batches.foldl StateMap.writeAll ∅)) := by
  have hstored : Stored source domain 0 (stateTree domain ∅) := by
    rw [stateTree_empty]
    exact .empty _ _
  grind [stateRoot_empty, applyBatches_ok]

omit hfree in
theorem applyBatches_accepted {source final : StateSource} {root root' : Hash256}
    {batches : List (List StateWrite)}
    (h : applyBatches domain source root batches = .ok (final, root')) :
    ∀ writes ∈ batches, ∃ writeSet, StateWriteSet.new domain writes = .ok writeSet := by
  induction batches generalizing source root with
  | nil => simp
  | cons writes batches ih => grind [applyBatches, bind_eq_ok]

/-- The root is a canonical commitment. Whatever write sets two histories apply from the
empty root, they end with the same root exactly when they end with the same map, and
with the empty root when nothing is left. -/
theorem roots_commit_to_maps {source source' : StateSource}
    {batches batches' : List (List StateWrite)}
    (hstrings : historyStrings domain ∅ batches ⊆ S) (hstrings' : historyStrings domain ∅ batches' ⊆ S)
    (hhonest : source.Honest domain S) (hhonest' : source'.Honest domain S)
    (haccepted : ∀ writes ∈ batches, ∃ writeSet, StateWriteSet.new domain writes = .ok writeSet)
    (haccepted' : ∀ writes ∈ batches', ∃ writeSet, StateWriteSet.new domain writes = .ok writeSet) :
    ∃ final final' root root',
      applyBatches domain source (emptyHashes domain 0) batches = .ok (final, root) ∧
      applyBatches domain source' (emptyHashes domain 0) batches' = .ok (final', root') ∧
      (root = root' ↔ batches.foldl StateMap.writeAll ∅ = batches'.foldl StateMap.writeAll ∅) ∧
      (batches.foldl StateMap.writeAll ∅ = ∅ → root = emptyHashes domain 0) := by
  obtain ⟨final, hrun, -⟩ := applyBatches_empty hfree hstrings hhonest haccepted
  obtain ⟨final', hrun', -⟩ := applyBatches_empty hfree hstrings' hhonest' haccepted'
  refine ⟨final, final', _, _, hrun, hrun', ?_, fun h => by rw [h, stateRoot_empty]⟩
  exact stateRoot_inj hfree (history_last hstrings) (history_last hstrings')

end

open Oregon.ContractState.Sample in
theorem Sample.putOne_history : historyStrings .evm ∅ [putOne] ⊆ tableStrings twoEntries := by
  refine Set.union_subset (Set.union_subset empty_strings ?_) oneMap_strings
  rintro _ ⟨w, hw, hx⟩
  exact hx ▸ putOne_keys w hw

open Oregon.ContractState.Sample in
/-- A put with its deletion, and the put alone. -/
theorem roots_commit_to_maps_sample : ∃ final final' root root',
    applyBatches .evm nothing (emptyHashes .evm 0) [putOne, deleteOne] = .ok (final, root) ∧
    applyBatches .evm nothing (emptyHashes .evm 0) [putOne] = .ok (final', root') ∧
    root = emptyHashes .evm 0 ∧ root ≠ root' := by
  have hdeleted : StateMap.writeAll (StateMap.writeAll ∅ putOne) deleteOne = ∅ := by
    refine Std.ExtTreeMap.ext_getElem? fun key => ?_
    change (StateMap.write (StateMap.write ∅ ⟨[1], some [2]⟩) ⟨[1], none⟩)[key]? = _
    rw [lookup_write, lookup_write]
    split_ifs <;> simp
  have hput := putOne_history
  have hboth : historyStrings .evm ∅ [putOne, deleteOne] ⊆ tableStrings twoEntries := by
    refine Set.union_subset (fun x hx => hput (Or.inl hx)) (Set.union_subset
      (Set.union_subset oneMap_strings ?_) ?_)
    · rintro x ⟨w, hw, hx⟩
      obtain rfl := List.mem_singleton.mp hw
      exact hx ▸ putOne_keys ⟨[1], some [2]⟩ (List.mem_singleton.mpr rfl)
    · rw [historyStrings, hdeleted]
      exact empty_strings
  obtain ⟨final, final', root, root', hrun, hrun', hiff, hempty⟩ :=
    roots_commit_to_maps free hboth hput nothing_honest nothing_honest
      (by simpa using ⟨putOne_accepted, deleteOne_accepted⟩) (by simpa using putOne_accepted)
  refine ⟨final, final', root, root', hrun, hrun', hempty hdeleted, fun heq => ?_⟩
  have hone := congrArg (fun m : StateMap => m[([1] : Bytes)]?) (hdeleted.symm.trans (hiff.mp heq))
  change _ = (StateMap.write ∅ ⟨[1], some [2]⟩)[([1] : Bytes)]? at hone
  rw [lookup_write, if_pos rfl] at hone
  simp at hone

end Oregon.ContractState
