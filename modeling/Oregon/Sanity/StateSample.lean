import Mathlib.Combinatorics.Colex
import Oregon.Sanity.StateTree

/-! A world in which the hashes of a state do not collide. A table lists the keys with the
values that they can have; keys and values hash to their places in it, a subtree to its
depth and the set of entries below it. So a string can be read off its hash, and all
the trees over the table are hashed without collisions. -/

namespace Oregon.ContractState.Sample

open Lib

/-- Keys with values that they can have. -/
abbrev Table := List (Bytes × Bytes)

def pack (tag dom payload : ℕ) : Hash256 := BitVec.ofNat 256 (tag + 4 * (dom + 128 * payload))

/-- What a hash is packed from. -/
def unpack (h : Hash256) : ℕ × ℕ × ℕ := (h.toNat % 4, h.toNat / 4 % 128, h.toNat / 4 / 128)

theorem unpack_pack {tag dom payload : ℕ} (htag : tag < 4) (hdom : dom < 128)
    (hpayload : payload < 2 ^ 240) : unpack (pack tag dom payload) = (tag, dom, payload) := by
  grind [pack, unpack]

/-- The hash of a subtree at `depth`, over the entries `below`. -/
def code (dom : ℕ) (below : Finset ℕ) (depth : ℕ) : Hash256 :=
  pack 0 dom (depth + 512 * Finset.equivBitIndices.symm below)

/-- The entries below a subtree. -/
def below (h : Hash256) : Finset ℕ := Finset.equivBitIndices ((unpack h).2.2 / 512)

section

variable (table : Table)

def keyIndex (key : Bytes) : ℕ := (table.map Prod.fst).idxOf key

def valueIndex (value : Bytes) : ℕ := (table.map Prod.snd).idxOf value

def keyCode (dom : ℕ) (key : Bytes) : Hash256 := pack 1 dom (keyIndex table key)

def valueCode (dom : ℕ) (value : Bytes) : Hash256 := pack 2 dom (valueIndex table value)

/-- The entry of a leaf. -/
def entryIndex (dom : ℕ) (path value : Hash256) : ℕ :=
  table.findIdx fun e => keyCode table dom e.1 = path ∧ valueCode table dom e.2 = value

/-- The byte at 17 tells the strings of the state apart. -/
def tableHash (s : Bytes) : Hash256 :=
  let body := s.drop 18
  match (s[17]? : Option UInt8) with
  | some 75 => keyCode table (readLE ((body.drop 6).take 2)) (body.drop 8)
  | some 86 => valueCode table (readLE ((body.drop 8).take 2)) (body.drop 10)
  | some 69 => code (readLE ((body.drop 8).take 2)) ∅ 256
  | some 76 =>
    let dom := readLE ((body.drop 7).take 2)
    code dom {entryIndex table dom (fromBytes ((body.drop 9).take 32))
      (fromBytes ((body.drop 41).take 32))} 256
  | some 78 =>
    code (readLE ((body.drop 7).take 2))
      (below (fromBytes ((body.drop 11).take 32)) ∪ below (fromBytes ((body.drop 43).take 32)))
      (readLE ((body.drop 9).take 2))
  | _ => 0

abbrev tableCrypto : Crypto where
  blake3 := tableHash table
  randomx _ _ := 0

/-- The entries of a set whose path turns to `side` at `depth`. -/
def turning (dom depth : ℕ) (side : Bool) (entries : Finset ℕ) : Finset ℕ :=
  entries.filter fun i => ∃ e ∈ table[i]?, bitOf (keyCode table dom e.1) depth = side

/-- The strings that are hashed for trees over the table. -/
inductive TableString (domain : CommitmentDomainId) : Bytes → Prop where
  | key {e : Bytes × Bytes} (h : e ∈ table) : TableString domain (keyString domain e.1)
  | value {e : Bytes × Bytes} (h : e ∈ table) : TableString domain (valueString domain e.2)
  | empty : TableString domain (emptyString domain)
  | leaf {e : Bytes × Bytes} (h : e ∈ table) : TableString domain
      (leafString domain (keyCode table domain.toU16 e.1) (valueCode table domain.toU16 e.2))
  | node {depth : ℕ} {entries : Finset ℕ} (hdepth : depth < 256)
      (hentries : ∀ i ∈ entries, i < table.length) : TableString domain
      (nodeString domain depth
        (code domain.toU16 (turning table domain.toU16 depth false entries) (depth + 1))
        (code domain.toU16 (turning table domain.toU16 depth true entries) (depth + 1)))

def domainOf (dom : ℕ) : CommitmentDomainId :=
  if dom = 0x0001 then .nativeUtxo
  else if dom = 0x0010 then .evm
  else if dom = 0x0011 then .wasm
  else if dom = 0x0020 then .executionAccounting
  else if dom = 0x0030 then .executionReceipts
  else if dom = 0x0040 then .asyncOutbox
  else if dom = 0x0041 then .asyncConsumed
  else .feeState

/-- The string behind a hash. -/
def stringOf (h : Hash256) : Bytes :=
  let (tag, dom, payload) := unpack h
  let domain := domainOf dom
  if tag = 1 then keyString domain ((table.map Prod.fst).getD payload [])
  else if tag = 2 then valueString domain ((table.map Prod.snd).getD payload [])
  else
    let depth := payload % 512
    let entries := Finset.equivBitIndices (payload / 512)
    if depth = 256 then
      if entries = ∅ then emptyString domain
      else
        let e := table.getD (entries.sup id) ([], [])
        leafString domain (keyCode table dom e.1) (valueCode table dom e.2)
    else nodeString domain depth (code dom (turning table dom depth false entries) (depth + 1))
      (code dom (turning table dom depth true entries) (depth + 1))

end

theorem toU16_lt (domain : CommitmentDomainId) : domain.toU16 < 128 := by
  cases domain <;> decide

@[simp] theorem domainOf_toU16 (domain : CommitmentDomainId) : domainOf domain.toU16 = domain := by
  cases domain <;> decide

theorem readLE_prefix (domain : CommitmentDomainId) (rest : Bytes) :
    readLE ((domainPrefix domain ++ rest).take 2) = domain.toU16 := by
  rw [domainPrefix, List.take_left' (leBytes_length _ _),
    readLE_leBytes_of_lt ((toU16_lt domain).trans (by decide))]

theorem drop_prefix (domain : CommitmentDomainId) (n : ℕ) (rest : Bytes) :
    (domainPrefix domain ++ rest).drop (n + 2) = rest.drop n := by
  rw [Nat.add_comm, ← List.drop_drop, domainPrefix, List.drop_left' (leBytes_length _ _)]

section

variable {table : Table} {domain : CommitmentDomainId}

theorem tableHash_key (key : Bytes) :
    tableHash table (keyString domain key) = keyCode table domain.toU16 key := by
  have htag : ∀ x, tableHash table (KEY_DOMAIN ++ x) =
      keyCode table (readLE (x.take 2)) (x.drop 2) := fun _ => rfl
  rw [keyString, htag, readLE_prefix, drop_prefix domain 0]
  rfl

theorem tableHash_value (value : Bytes) :
    tableHash table (valueString domain value) = valueCode table domain.toU16 value := by
  have htag : ∀ x, tableHash table (VALUE_DOMAIN ++ x) =
      valueCode table (readLE (x.take 2)) (x.drop 2) := fun _ => rfl
  rw [valueString, htag, readLE_prefix, drop_prefix domain 0]
  rfl

theorem tableHash_empty : tableHash table (emptyString domain) = code domain.toU16 ∅ 256 := by
  have htag : ∀ x, tableHash table (EMPTY_DOMAIN ++ x) = code (readLE (x.take 2)) ∅ 256 :=
    fun _ => rfl
  rw [emptyString, htag, ← List.append_nil (domainPrefix domain), readLE_prefix]

theorem tableHash_leaf (path value : Hash256) : tableHash table (leafString domain path value) =
    code domain.toU16 {entryIndex table domain.toU16 path value} 256 := by
  have htag : ∀ x, tableHash table (LEAF_DOMAIN ++ x) =
      code (readLE (x.take 2)) {entryIndex table (readLE (x.take 2)) (fromBytes ((x.drop 2).take 32))
        (fromBytes ((x.drop 34).take 32))} 256 := fun _ => rfl
  rw [leafString, htag, List.append_assoc, readLE_prefix, drop_prefix domain 0,
    drop_prefix domain 32, List.drop_zero, List.take_left' (asBytes_length _),
    List.drop_left' (asBytes_length _), List.take_of_length_le (asBytes_length _).le,
    fromBytes_asBytes, fromBytes_asBytes]

theorem tableHash_node {depth : ℕ} (hdepth : depth < 256) (left right : Hash256) :
    tableHash table (nodeString domain depth left right) =
      code domain.toU16 (below left ∪ below right) depth := by
  have htag : ∀ x, tableHash table (NODE_DOMAIN ++ x) = code (readLE (x.take 2))
      (below (fromBytes ((x.drop 4).take 32)) ∪ below (fromBytes ((x.drop 36).take 32)))
      (readLE ((x.drop 2).take 2)) := fun _ => rfl
  have hdrop : ∀ (n : ℕ) (rest : Bytes), (leBytes 2 depth ++ rest).drop (n + 2) = rest.drop n := by
    intro n rest
    rw [Nat.add_comm, ← List.drop_drop, List.drop_left' (leBytes_length _ _)]
  rw [nodeString, htag, List.append_assoc, List.append_assoc, readLE_prefix, drop_prefix domain 0,
    drop_prefix domain 2, drop_prefix domain 34, hdrop 0, hdrop 32, List.drop_zero, List.drop_zero,
    List.take_left' (leBytes_length _ _), List.take_left' (asBytes_length _),
    List.drop_left' (asBytes_length _), List.take_of_length_le (asBytes_length _).le,
    fromBytes_asBytes, fromBytes_asBytes, readLE_leBytes_of_lt (by omega)]

theorem equivBitIndices_lt {entries : Finset ℕ} {n : ℕ} (h : ∀ i ∈ entries, i < n) :
    Finset.equivBitIndices.symm entries < 2 ^ n := by
  exact Nat.geomSum_lt le_rfl h

section

variable (hsize : table.length ≤ 200)

include hsize

theorem unpack_code {entries : Finset ℕ} {depth : ℕ} (h : ∀ i ∈ entries, i < table.length)
    (hdepth : depth ≤ 256) : unpack (code domain.toU16 entries depth) =
      (0, domain.toU16, depth + 512 * Finset.equivBitIndices.symm entries) := by
  have hlt := equivBitIndices_lt fun i hi => (h i hi).trans_le hsize
  exact unpack_pack (by omega) (toU16_lt domain) (by omega)

theorem below_code {entries : Finset ℕ} {depth : ℕ} (h : ∀ i ∈ entries, i < table.length)
    (hdepth : depth ≤ 256) : below (code domain.toU16 entries depth) = entries := by
  grind [below, unpack_code, Equiv.apply_symm_apply]

theorem unpack_keyCode {e : Bytes × Bytes} (h : e ∈ table) :
    unpack (keyCode table domain.toU16 e.1) = (1, domain.toU16, keyIndex table e.1) := by
  have hlt : keyIndex table e.1 < table.length := by
    have := List.idxOf_lt_length_of_mem (List.mem_map_of_mem (f := Prod.fst) h)
    rwa [List.length_map] at this
  exact unpack_pack (by omega) (toU16_lt domain) (by omega)

theorem unpack_valueCode {e : Bytes × Bytes} (h : e ∈ table) :
    unpack (valueCode table domain.toU16 e.2) = (2, domain.toU16, valueIndex table e.2) := by
  have hlt : valueIndex table e.2 < table.length := by
    have := List.idxOf_lt_length_of_mem (List.mem_map_of_mem (f := Prod.snd) h)
    rwa [List.length_map] at this
  exact unpack_pack (by omega) (toU16_lt domain) (by omega)

end

theorem getD_idxOf {l : List Bytes} {x : Bytes} (h : x ∈ l) : l.getD (l.idxOf x) [] = x := by
  simp_all

theorem getD_keyIndex {e : Bytes × Bytes} (h : e ∈ table) :
    (table.map Prod.fst).getD (keyIndex table e.1) [] = e.1 :=
  getD_idxOf (List.mem_map_of_mem h)

theorem getD_valueIndex {e : Bytes × Bytes} (h : e ∈ table) :
    (table.map Prod.snd).getD (valueIndex table e.2) [] = e.2 :=
  getD_idxOf (List.mem_map_of_mem h)

theorem keyCode_inj (hsize : table.length ≤ 200) {e e' : Bytes × Bytes} (h : e ∈ table)
    (h' : e' ∈ table)
    (heq : keyCode table domain.toU16 e.1 = keyCode table domain.toU16 e'.1) : e.1 = e'.1 := by
  have hindex := congrArg (fun x => (unpack x).2.2) heq
  simp only [unpack_keyCode hsize h, unpack_keyCode hsize h'] at hindex
  rw [← getD_keyIndex h, hindex, getD_keyIndex h']

theorem valueCode_inj (hsize : table.length ≤ 200) {e e' : Bytes × Bytes} (h : e ∈ table)
    (h' : e' ∈ table)
    (heq : valueCode table domain.toU16 e.2 = valueCode table domain.toU16 e'.2) : e.2 = e'.2 := by
  have hindex := congrArg (fun x => (unpack x).2.2) heq
  simp only [unpack_valueCode hsize h, unpack_valueCode hsize h'] at hindex
  rw [← getD_valueIndex h, hindex, getD_valueIndex h']

/-- The entry of a leaf is found. -/
theorem entryIndex_spec (domain : CommitmentDomainId) (hsize : table.length ≤ 200)
    {e : Bytes × Bytes} (h : e ∈ table) :
    table[entryIndex table domain.toU16 (keyCode table domain.toU16 e.1)
      (valueCode table domain.toU16 e.2)]? = some e := by
  have hlt : entryIndex table domain.toU16 (keyCode table domain.toU16 e.1)
      (valueCode table domain.toU16 e.2) < table.length :=
    List.findIdx_lt_length_of_exists ⟨e, h, by simp⟩
  have hfound := List.findIdx_getElem (w := hlt)
  simp only [decide_eq_true_eq] at hfound
  rw [List.getElem?_eq_getElem hlt, Option.some.injEq]
  exact Prod.ext (keyCode_inj hsize (List.getElem_mem _) h hfound.1)
    (valueCode_inj hsize (List.getElem_mem _) h hfound.2)

theorem turning_subset {depth : ℕ} {side : Bool} {entries : Finset ℕ} {i : ℕ}
    (h : i ∈ turning table domain.toU16 depth side entries) : i ∈ entries :=
  (Finset.mem_filter.mp h).1

/-- Every entry turns to one of the sides. -/
theorem turning_union {depth : ℕ} {entries : Finset ℕ} (h : ∀ i ∈ entries, i < table.length) :
    turning table domain.toU16 depth false entries ∪
      turning table domain.toU16 depth true entries = entries := by
  ext i
  simp only [turning, Finset.mem_union, Finset.mem_filter, ← and_or_left]
  refine ⟨fun hi => hi.1, fun hi => ⟨hi, ?_⟩⟩
  cases hbit : bitOf (keyCode table domain.toU16 (table.get ⟨i, h i hi⟩).1) depth with
  | false => exact Or.inl ⟨_, List.getElem?_eq_getElem (h i hi), hbit⟩
  | true => exact Or.inr ⟨_, List.getElem?_eq_getElem (h i hi), hbit⟩

/-- A string can be read off its hash. -/
theorem stringOf_tableHash (hsize : table.length ≤ 200) {x : Bytes}
    (h : TableString table domain x) : stringOf table (tableHash table x) = x := by
  cases h with
  | key h =>
    rw [tableHash_key, stringOf, unpack_keyCode hsize h]
    simp only [if_true, domainOf_toU16, getD_keyIndex h]
  | value h =>
    rw [tableHash_value, stringOf, unpack_valueCode hsize h]
    simp only [OfNat.ofNat_ne_one, if_false, if_true, domainOf_toU16, getD_valueIndex h]
  | empty =>
    rw [tableHash_empty, stringOf, unpack_code hsize (by simp) le_rfl]
    simp
  | @leaf e h =>
    have hentry := entryIndex_spec domain hsize h
    have hlt := (List.getElem?_eq_some_iff.mp hentry).1
    rw [tableHash_leaf, stringOf, unpack_code hsize (by simpa using hlt) le_rfl]
    have hmod : ∀ n, (256 + 512 * n) % 512 = 256 := fun n => by omega
    have hdiv : ∀ n, (256 + 512 * n) / 512 = n := fun n => by omega
    simp_all
  | @node depth entries hdepth hentries =>
    have hside : ∀ side, ∀ i ∈ turning table domain.toU16 depth side entries, i < table.length :=
      fun side i hi => hentries i (turning_subset hi)
    rw [tableHash_node hdepth, below_code hsize (hside false) (by omega),
      below_code hsize (hside true) (by omega), turning_union hentries, stringOf,
      unpack_code hsize hentries hdepth.le]
    have hmod : ∀ n, (depth + 512 * n) % 512 = depth := fun n => by omega
    have hdiv : ∀ n, (depth + 512 * n) / 512 = n := fun n => by omega
    simp only [hmod, hdiv, Equiv.apply_symm_apply, hdepth.ne, if_false, domainOf_toU16,
      Nat.zero_ne_one, OfNat.zero_ne_ofNat]

/-- The strings of the table, in all domains. -/
def tableStrings (table : Table) : Set Bytes := {x | ∃ domain, TableString table domain x}

theorem tableStrings_injOn (hsize : table.length ≤ 200) :
    (tableStrings table).InjOn (tableHash table) :=
  Set.LeftInvOn.injOn fun _ hx => stringOf_tableHash hsize hx.choose_spec

/-- Every leaf is an entry of the table, at the end of its path. -/
def Over (table : Table) (domain : CommitmentDomainId) {n : ℕ} (d : ℕ) (t : Slots Leaf n) : Prop :=
  ∀ bits l, Slots.get bits d t = some l →
    ∃ e ∈ table, l = (keyCode table domain.toU16 e.1, e.2) ∧
      ∀ i, d ≤ i → i < d + n → bitOf l.1 i = bits i

theorem Over.side {n d : ℕ} {t : Slots Leaf (n + 1)} (h : Over table domain d t) (side : Bool) :
    Over table domain (d + 1) (if side then t.2 else t.1) := by
  intro bits l hl
  rw [← Slots.get_turn] at hl
  obtain ⟨e, he, hleaf, hbits⟩ := h _ l hl
  grind

/-- The entries whose leaves are in the tree. -/
def Entries (table : Table) (domain : CommitmentDomainId) {n : ℕ} (d : ℕ) (t : Slots Leaf n)
    (entries : Finset ℕ) : Prop :=
  ∀ i ∈ entries, ∃ e, table[i]? = some e ∧
    ∃ bits, Slots.get bits d t = some (keyCode table domain.toU16 e.1, e.2)

theorem Entries.lt {n d : ℕ} {t : Slots Leaf n} {entries : Finset ℕ}
    (h : Entries table domain d t entries) : ∀ i ∈ entries, i < table.length := by
  intro i hi
  obtain ⟨e, he, -⟩ := h i hi
  exact (List.getElem?_eq_some_iff.mp he).1

theorem Entries.turns {n d : ℕ} {t : Slots Leaf (n + 1)} {side : Bool} {entries : Finset ℕ}
    (hover : Over table domain d t)
    (h : Entries table domain (d + 1) (if side then t.2 else t.1) entries) :
    Entries table domain d t entries ∧
      ∀ i ∈ entries, ∃ e ∈ table[i]?, bitOf (keyCode table domain.toU16 e.1) d = side := by
  have hturn : ∀ i ∈ entries, ∃ e, table[i]? = some e ∧ (∃ bits, Slots.get bits d t =
      some (keyCode table domain.toU16 e.1, e.2)) ∧
      bitOf (keyCode table domain.toU16 e.1) d = side := by
    intro i hi
    obtain ⟨e, he, bits, hl⟩ := h i hi
    rw [← Slots.get_turn] at hl
    obtain ⟨_, -, -, hbits⟩ := hover _ _ hl
    exact ⟨e, he, ⟨_, hl⟩, (hbits d le_rfl (by omega)).trans (if_pos rfl)⟩
  refine ⟨fun i hi => ?_, fun i hi => ?_⟩
  · grind
  · grind

/-- What the entries below the two sides are, from all of them. -/
theorem turning_of_sides {d : ℕ} {left right : Finset ℕ}
    (hleft : ∀ i ∈ left, ∃ e ∈ table[i]?, bitOf (keyCode table domain.toU16 e.1) d = false)
    (hright : ∀ i ∈ right, ∃ e ∈ table[i]?, bitOf (keyCode table domain.toU16 e.1) d = true) :
    turning table domain.toU16 d false (left ∪ right) = left ∧
      turning table domain.toU16 d true (left ∪ right) = right := by
  constructor <;> ext i <;> simp only [turning, Finset.mem_filter, Finset.mem_union]
  · grind
  · grind

section Hash

variable [Crypto] (hhash : Crypto.blake3 = tableHash table) (hsize : table.length ≤ 200)

include hhash

theorem pathDigest_table (domain : CommitmentDomainId) (key : Bytes) :
    pathDigest domain key = keyCode table domain.toU16 key := by
  rw [pathDigest, hhash, tableHash_key]

theorem valueDigest_table (domain : CommitmentDomainId) (value : Bytes) :
    valueDigest domain value = valueCode table domain.toU16 value := by
  rw [valueDigest, hhash, tableHash_value]

include hsize

/-- A tree over the table hashes to its entries, all its strings being those of the table. -/
theorem hash_over {n d : ℕ} {t : Slots Leaf n} (hd : d + n = 256) (h : Over table domain d t) :
    ∃ entries, Entries table domain d t entries ∧
      Slots.hash (digest domain) d t = code domain.toU16 entries d ∧
      ∀ input ∈ Slots.inputs (digest domain) d t, inputStrings domain input ⊆ tableStrings table := by
  induction n generalizing d with
  | zero =>
    obtain rfl : d = 256 := by omega
    cases t with
    | none =>
      refine ⟨∅, by simp [Entries], ?_, ?_⟩
      · change Crypto.blake3 (emptyString domain) = _
        rw [hhash, tableHash_empty]
      · rintro _ rfl _ rfl
        exact ⟨domain, .empty⟩
    | some l =>
      obtain ⟨e, he, rfl, -⟩ := h (fun _ => false) l rfl
      have hentry := entryIndex_spec domain hsize he
      have hvalue := valueDigest_table hhash domain e.2
      refine ⟨{entryIndex table domain.toU16 (keyCode table domain.toU16 e.1)
        (valueCode table domain.toU16 e.2)}, ?_, ?_, ?_⟩
      · intro i hi
        obtain rfl := Finset.mem_singleton.mp hi
        exact ⟨e, hentry, fun _ => false, rfl⟩
      · change Crypto.blake3 (leafString domain _ _) = _
        rw [hhash, hvalue, tableHash_leaf]
      · rintro _ rfl _ (rfl | rfl)
        · exact ⟨domain, .value he⟩
        · rw [hvalue]
          exact ⟨domain, .leaf he⟩
  | succ n ih =>
    obtain ⟨left, hleft, hleftHash, hleftInputs⟩ := ih (by omega) (h.side false)
    obtain ⟨right, hright, hrightHash, hrightInputs⟩ := ih (by omega) (h.side true)
    obtain ⟨hleftAll, hleftTurn⟩ := hleft.turns h
    obtain ⟨hrightAll, hrightTurn⟩ := hright.turns h
    obtain ⟨hturnLeft, hturnRight⟩ := turning_of_sides hleftTurn hrightTurn
    have hall : Entries table domain d t (left ∪ right) := fun i hi =>
      (Finset.mem_union.mp hi).elim (hleftAll i) (hrightAll i)
    simp only [Bool.false_eq_true, if_false, if_true] at hleftHash hrightHash hleftInputs hrightInputs
    refine ⟨left ∪ right, hall, ?_, ?_⟩
    · change Crypto.blake3 (nodeString domain d (Slots.hash (digest domain) (d + 1) t.1)
        (Slots.hash (digest domain) (d + 1) t.2)) = _
      rw [hhash, tableHash_node (by omega), hleftHash, hrightHash,
        below_code hsize hleft.lt (by omega), below_code hsize hright.lt (by omega)]
    · rintro input (rfl | hi | hi)
      · rintro _ rfl
        have hnode : TableString table domain (nodeString domain d
            (code domain.toU16 (turning table domain.toU16 d false (left ∪ right)) (d + 1))
            (code domain.toU16 (turning table domain.toU16 d true (left ∪ right)) (d + 1))) :=
          .node (by omega) hall.lt
        rw [hturnLeft, hturnRight, ← hleftHash, ← hrightHash] at hnode
        exact ⟨domain, hnode⟩
      · exact hleftInputs input hi
      · exact hrightInputs input hi

end Hash

end

end Oregon.ContractState.Sample
