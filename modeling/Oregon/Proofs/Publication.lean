import Oregon.Proofs.Journal

/-! Publishing a journal. The writes of the root frame are applied domain by domain to the
same source, and each transition is added to it afterwards. Domains do not meet under one
hash, so at the new roots the extended source returns what the journal returned. -/

namespace Oregon.ContractState

open Lib

theorem domainPrefix_append_inj {d d' : CommitmentDomainId} {x y : Bytes}
    (h : domainPrefix d ++ x = domainPrefix d' ++ y) : d = d' := by
  have hprefix := (List.append_inj h (by simp [domainPrefix])).1
  have hcode : d.toU16 = d'.toU16 :=
    leBytes_inj (by cases d <;> decide) (by cases d' <;> decide) hprefix
  revert hcode
  cases d <;> cases d' <;> decide

section

variable [Crypto] {S : Set Bytes} {domain domain' : CommitmentDomainId}

theorem digest_domain (hfree : S.InjOn Crypto.blake3) {i j : Input Leaf Hash256}
    (hi : i ∈ known domain S) (hj : j ∈ known domain' S) (h : digest domain i = digest domain' j) :
    domain = domain' := by
  replace hi := hi.1
  replace hj := hj.1
  rcases i with _ | ⟨p, v⟩ | ⟨d, l, r⟩ <;> rcases j with _ | ⟨q, w⟩ | ⟨e, l', r'⟩
  · have heq := List.append_cancel_left (hfree (hi rfl) (hj rfl) h)
    exact domainPrefix_append_inj (x := []) (y := []) (by simpa using heq)
  · exact absurd (hfree (hi rfl) (hj (Or.inr rfl)) h) (empty_ne_leaf _ _)
  · exact absurd (hfree (hi rfl) (hj rfl) h) (empty_ne_node _ _)
  · exact absurd (hfree (hi (Or.inr rfl)) (hj rfl) h).symm (empty_ne_leaf _ _)
  · have heq := List.append_cancel_left (hfree (hi (Or.inr rfl)) (hj (Or.inr rfl)) h)
    exact domainPrefix_append_inj heq
  · exact absurd (hfree (hi (Or.inr rfl)) (hj rfl) h) (leaf_ne_node _ _)
  · exact absurd (hfree (hi rfl) (hj rfl) h).symm (empty_ne_node _ _)
  · exact absurd (hfree (hi rfl) (hj (Or.inr rfl)) h).symm (leaf_ne_node _ _)
  · have heq := List.append_cancel_left (hfree (hi rfl) (hj rfl) h)
    exact domainPrefix_append_inj heq

theorem valueDigest_domain (hfree : S.InjOn Crypto.blake3) {v w : Bytes}
    (hv : valueString domain v ∈ S) (hw : valueString domain' w ∈ S)
    (h : valueDigest domain v = valueDigest domain' w) : domain = domain' :=
  domainPrefix_append_inj (List.append_cancel_left (hfree hv hw h))

variable {source source' source'' : StateSource}

theorem Carries.refl : Carries domain S source source := ⟨fun _ _ _ _ => id, fun _ _ => id⟩

theorem Carries.trans (h : Carries domain S source source') (h' : Carries domain S source' source'') :
    Carries domain S source source'' :=
  ⟨fun i hi node hnode hfound => h'.node i hi node hnode (h.node i hi node hnode hfound),
    fun v hv hfound => h'.value v hv (h.value v hv hfound)⟩

/-- The nodes and values of a domain hide nothing of any domain. -/
theorem Faithful.carries_any (hfree : S.InjOn Crypto.blake3) {b : TransitionBuilder}
    (hb : Faithful domain' S b) : Carries domain S source (source.extend b.nodes b.values) := by
  by_cases hdomain : domain = domain'
  · subst hdomain
    exact hb.carries_source hfree
  constructor
  · intro i hi node _ hfound
    have hnone : b.nodes[digest domain i]? = none := by
      rw [← notMem_iff_lookup]
      intro hmem
      obtain ⟨node', hnode'⟩ := (mem_iff_lookup ..).mp hmem
      obtain ⟨j, hj, hdigest, -⟩ := hb.nodes _ _ hnode'
      exact hdomain (digest_domain hfree hi hj hdigest.symm)
    simp only [StateSource.extend, hnone, hfound]
  · intro value hvalue hfound
    have hnone : b.values[valueDigest domain value]? = none := by
      rw [← notMem_iff_lookup]
      intro hmem
      obtain ⟨value', hvalue'⟩ := (mem_iff_lookup ..).mp hmem
      obtain ⟨hstring, hdigest⟩ := hb.values _ _ hvalue'
      exact hdomain (valueDigest_domain hfree hvalue hstring hdigest.symm)
    simp only [StateSource.extend, hnone, hfound]

theorem Carries.after (h : Carries domain S source source') (t : StateTransition) :
    Carries domain S (source.after t) (source'.after t) := by
  constructor
  · intro i hi node hnode hfound
    simp only [StateSource.after, StateSource.extend] at hfound ⊢
    cases ht : t.nodes[digest domain i]? with
    | some node' => rwa [ht] at hfound
    | none =>
      rw [ht] at hfound
      exact h.node i hi node hnode hfound
  · intro value hvalue hfound
    simp only [StateSource.after, StateSource.extend] at hfound ⊢
    cases ht : t.values[valueDigest domain value]? with
    | some value' => rwa [ht] at hfound
    | none =>
      rw [ht] at hfound
      exact h.value value hvalue hfound

/-- The source with several transitions added. -/
def StateSource.afterAll (source : StateSource) (ts : List StateTransition) : StateSource :=
  ts.foldl StateSource.after source

theorem carries_afterAll (hfree : S.InjOn Crypto.blake3) {ts : List StateTransition}
    (hts : ∀ t ∈ ts, Faithful t.domain S ⟨t.nodes, t.values⟩) :
    Carries domain S source (source.afterAll ts) := by
  induction ts generalizing source with
  | nil => exact .refl
  | cons t ts ih =>
    obtain ⟨ht, hts⟩ := List.forall_mem_cons.mp hts
    have hfirst : Carries domain S source (source.after t) := ht.carries_any hfree
    exact hfirst.trans (ih hts)

theorem carries_afterAll_mem (hfree : S.InjOn Crypto.blake3) {ts : List StateTransition}
    (hts : ∀ t ∈ ts, Faithful t.domain S ⟨t.nodes, t.values⟩) {t : StateTransition} (ht : t ∈ ts) :
    Carries domain S (source.after t) (source.afterAll ts) := by
  induction ts generalizing source with
  | nil => cases ht
  | cons first ts ih =>
    obtain ⟨hfirst, hrest⟩ := List.forall_mem_cons.mp hts
    rcases List.mem_cons.mp ht with rfl | ht
    · exact carries_afterAll hfree hrest
    · have hcarry : Carries domain S source (source.after first) := hfirst.carries_any hfree
      exact (hcarry.after t).trans (ih hrest ht)

theorem applyWriteSet_domain {snapshot : DomainSnapshot} {writeSet : StateWriteSet}
    {t : StateTransition} (h : applyWriteSet source snapshot writeSet = .ok t) :
    t.domain = snapshot.domain := by
  simp only [applyWriteSet, bind_eq_ok, ensure_eq_ok, exists_and_left, exists_const] at h
  obtain ⟨-, h⟩ := h
  split_ifs at h
  · exact (pure_eq_ok.mp h) ▸ rfl
  · simp only [bind_eq_ok, pure_eq_ok] at h
    obtain ⟨_, -, rfl⟩ := h
    rfl

end

end Oregon.ContractState

namespace Oregon.Execution

open Lib ContractState
open Std (ExtTreeMap)

/-- The writes of a frame to one domain. -/
def JournalFrame.domainWrites (frame : JournalFrame) (domain : CommitmentDomainId) :
    List StateWrite :=
  (frame.writes.getD domain ∅).toList.map fun (key, value) => StateWrite.mk key value

section

variable {frame : JournalFrame} {domain : CommitmentDomainId}

theorem domainWrites_keys : (frame.domainWrites domain).map StateWrite.key =
    (frame.writes.getD domain ∅).keys := by
  rw [JournalFrame.domainWrites, List.map_map, ← ExtTreeMap.map_fst_toList_eq_keys]
  rfl

theorem mem_domainWrites {w : StateWrite} :
    w ∈ frame.domainWrites domain ↔ frame.find domain w.key = some w.value := by
  rw [JournalFrame.domainWrites, List.mem_map, JournalFrame.find, find₂_getD,
    ← ExtTreeMap.mem_toList_iff_getElem?_eq_some]
  grind

theorem lookup_domainWrites (m : StateMap) (key : Bytes) :
    (m.writeAll (frame.domainWrites domain))[key]? = (frame.find domain key).getD m[key]? := by
  cases hfind : frame.find domain key with
  | some value =>
    have hmem : (⟨key, value⟩ : StateWrite) ∈ frame.domainWrites domain := mem_domainWrites.mpr hfind
    refine lookup_writeAll_of_mem ?_ hmem
    rw [domainWrites_keys]
    exact ExtTreeMap.nodup_keys
  | none => grind [lookup_writeAll_of_notMem, mem_domainWrites]

end

section

variable [Crypto] {S : Set Bytes} {j : ExecutionJournalV1}

/-- The source has the map `m` under the root of the snapshot, and no string that is hashed for
the map, for the writes of the frame or for the written map is without a hash of its own. -/
structure Intact (S : Set Bytes) (source : StateSource) (frame : JournalFrame)
    (snapshot : DomainSnapshot) (m : StateMap) : Prop where
  root : snapshot.root = stateRoot snapshot.domain m
  stored : Stored source snapshot.domain 0 (stateTree snapshot.domain m)
  honest : source.Honest snapshot.domain S
  strings : stateStrings snapshot.domain m ⊆ S
  written : stateStrings snapshot.domain (m.writeAll (frame.domainWrites snapshot.domain)) ⊆ S
  keys : ∀ w ∈ frame.domainWrites snapshot.domain, keyString snapshot.domain w.key ∈ S

/-- What publishing one domain gives. -/
structure Published (S : Set Bytes) (source : StateSource) (frame : JournalFrame)
    (snapshot : DomainSnapshot) (m : StateMap) (r : JournalDomainRootsV1)
    (ts : List StateTransition) : Prop where
  domain : r.domain = snapshot.domain
  old : r.oldRoot = snapshot.root
  new : r.newRoot = stateRoot snapshot.domain (m.writeAll (frame.domainWrites snapshot.domain))
  faithful : ∀ t ∈ ts, t.domain = snapshot.domain ∧ Faithful t.domain S ⟨t.nodes, t.values⟩
  changed : ts ≠ [] ↔ r.newRoot ≠ r.oldRoot
  stored : ∀ t ∈ ts, Stored (source.after t) snapshot.domain 0
    (stateTree snapshot.domain (m.writeAll (frame.domainWrites snapshot.domain)))

theorem domainWrites_accepted (hfree : S.InjOn Crypto.blake3) (hinv : j.Inv) {frame : JournalFrame}
    (hframe : frame ∈ j.frames) {domain : CommitmentDomainId}
    (hkeys : ∀ w ∈ frame.domainWrites domain, keyString domain w.key ∈ S) :
    ∃ writeSet, StateWriteSet.new domain (frame.domainWrites domain) = .ok writeSet := by
  have hfits : ∀ w ∈ frame.domainWrites domain, Fits w.key w.value := fun w hw =>
    hinv.fits frame hframe domain w.key w.value (mem_domainWrites.mp hw)
  refine StateWriteSet.new_complete ?_ (fun w hw => (hfits w hw).key)
    (fun w hw => (hfits w hw).value) ?_
  · -- the entries of one domain are among those of the frame
    have hdomain : (frame.domainWrites domain).length ≤ frame.count := by
      have hle := weight_getD_le (fun _ _ => 1) frame.writes domain
      rwa [weight_one, ← ExtTreeMap.length_toList,
        ← List.length_map fun (key, value) => StateWrite.mk key value] at hle
    have hsum := List.single_le_sum (fun _ _ => Nat.zero_le _) _
      (List.mem_map_of_mem (f := JournalFrame.entries) hframe)
    have hbound := hinv.entries_le.trans j.limits.entries_le
    rw [← (hinv.counted frame hframe).1] at hdomain
    rw [hinv.entries] at hbound
    exact hdomain.trans (hsum.trans hbound)
  · have hmap : (frame.domainWrites domain).map (fun w => pathDigest domain w.key) =
        (frame.writes.getD domain ∅).keys.map (pathDigest domain) := by
      rw [← domainWrites_keys, List.map_map]
      rfl
    rw [hmap]
    refine ExtTreeMap.nodup_keys.map_on fun a ha b hb heq => ?_
    rw [← domainWrites_keys, List.mem_map] at ha hb
    obtain ⟨w, hw, rfl⟩ := ha
    obtain ⟨w', hw', rfl⟩ := hb
    exact pathDigest_inj hfree (hkeys w hw) (hkeys w' hw') heq

variable {source : StateSource} {frame : JournalFrame} {m : CommitmentDomainId → StateMap}

theorem publishDomain_ok (hfree : S.InjOn Crypto.blake3) {snapshot : DomainSnapshot} {m : StateMap}
    (hintact : Intact S source frame snapshot m)
    (haccepted : ∃ writeSet, StateWriteSet.new snapshot.domain
      (frame.domainWrites snapshot.domain) = .ok writeSet)
    {p : Publication} (hp : p.finalWrites[snapshot.domain]? = frame.writes[snapshot.domain]?) :
    ∃ r ts, publishDomain source p (snapshot.domain, snapshot) =
        .ok ⟨p.finalWrites.erase snapshot.domain, p.roots ++ [r], p.transitions ++ ts⟩ ∧
      Published S source frame snapshot m r ts := by
  have hsnapshot : (⟨snapshot.domain, stateRoot snapshot.domain m⟩ : DomainSnapshot) = snapshot := by
    rw [← hintact.root]
  cases hwrites : frame.writes[snapshot.domain]? with
  | none =>
    have hnil : frame.domainWrites snapshot.domain = [] := by
      rw [JournalFrame.domainWrites, ExtTreeMap.getD_eq_getD_getElem?, hwrites]
      rfl
    have herase : p.finalWrites.erase snapshot.domain = p.finalWrites := by grind
    refine ⟨⟨snapshot.domain, snapshot.root, snapshot.root⟩, [], ?_, rfl, rfl, ?_, by simp, by simp,
      by simp⟩
    · simp only [publishDomain, hp, hwrites, herase, List.append_nil]
      rfl
    · rw [hnil]
      exact hintact.root
  | some domainWrites =>
    obtain ⟨writeSet, hnew⟩ := haccepted
    obtain ⟨t, happly, hroot, happlied⟩ := applyWriteSet_ok hfree hintact.strings hintact.written
      hintact.keys hintact.honest hintact.stored hnew
    rw [hsnapshot] at happly
    have hlist : frame.domainWrites snapshot.domain =
        domainWrites.toList.map fun (key, value) => StateWrite.mk key value := by
      rw [JournalFrame.domainWrites, ExtTreeMap.getD_eq_getD_getElem?, hwrites, Option.getD_some]
    refine ⟨⟨snapshot.domain, snapshot.root, t.newRoot⟩,
      if t.newRoot ≠ snapshot.root then [t] else [], ?_, rfl, rfl, hroot, ?_, ?_, ?_⟩
    · simp only [publishDomain, hp, hwrites]
      simp_all
    · intro t' ht'
      split_ifs at ht' with hchanged
      · obtain rfl := List.mem_singleton.mp ht'
        have hdomain := applyWriteSet_domain happly
        exact ⟨hdomain, hdomain ▸ happlied.faithful⟩
      · cases ht'
    · split_ifs with hchanged <;> simp [hchanged]
    · intro t' ht'
      split_ifs at ht' with hchanged
      · obtain rfl := List.mem_singleton.mp ht'
        exact happlied.stored
      · cases ht'

/-- The domains of a list are published one after the other. -/
theorem publish_ok (hfree : S.InjOn Crypto.blake3)
    {l : List (CommitmentDomainId × DomainSnapshot)} (hnodup : (l.map Prod.fst).Nodup)
    (hl : ∀ e ∈ l, e.1 = e.2.domain ∧ Intact S source frame e.2 (m e.1) ∧
      ∃ writeSet, StateWriteSet.new e.1 (frame.domainWrites e.1) = .ok writeSet)
    {p : Publication} (hp : ∀ e ∈ l, p.finalWrites[e.1]? = frame.writes[e.1]?) :
    ∃ published : List (JournalDomainRootsV1 × List StateTransition),
      l.foldlM (publishDomain source) p =
        .ok ⟨(l.map Prod.fst).foldl (·.erase ·) p.finalWrites, p.roots ++ published.map Prod.fst,
          p.transitions ++ published.flatMap Prod.snd⟩ ∧
      List.Forall₂ (fun e r => Published S source frame e.2 (m e.1) r.1 r.2) l published := by
  induction l generalizing p with
  | nil => exact ⟨[], by simp [pure, Except.pure], .nil⟩
  | cons e l ih =>
    obtain ⟨⟨hdomain, hintact, haccepted⟩, hl⟩ := List.forall_mem_cons.mp hl
    obtain ⟨hpe, hp⟩ := List.forall_mem_cons.mp hp
    obtain ⟨hnotMem, hnodup⟩ := List.nodup_cons.mp hnodup
    rw [hdomain] at haccepted hpe
    obtain ⟨r, ts, hpublish, hpublished⟩ := publishDomain_ok hfree hintact haccepted hpe
    obtain ⟨published, hrun, hrest⟩ := ih hnodup hl
      (p := ⟨p.finalWrites.erase e.2.domain, p.roots ++ [r], p.transitions ++ ts⟩) fun e' he' => by
        grind
    refine ⟨(r, ts) :: published, ?_, .cons hpublished hrest⟩
    have he : e = (e.2.domain, e.2) := by rw [← hdomain]
    rw [List.foldlM_cons, he, hpublish, ok_bind, hrun]
    simp

/-- What a journal publishes is what it showed. -/
structure Publishes (S : Set Bytes) (j : ExecutionJournalV1) (r : JournalResultV1) : Prop where
  domains : r.roots.map JournalDomainRootsV1.domain = j.snapshots.keys
  old : ∀ roots ∈ r.roots, j.snapshots[roots.domain]?.map DomainSnapshot.root = some roots.oldRoot
  reads : ∀ roots ∈ r.roots, ∀ key, keyString roots.domain key ∈ S →
    (readValue (j.source.afterAll r.transitions) ⟨roots.domain, roots.newRoot⟩ key).mapError .state =
      j.read roots.domain key
  changed : ∀ domain, (∃ t ∈ r.transitions, t.domain = domain) ↔
    ∃ roots ∈ r.roots, roots.domain = domain ∧ roots.newRoot ≠ roots.oldRoot

/-- A read of the root frame is a lookup in the written map. -/
theorem read_written (hfree : S.InjOn Crypto.blake3) (hinv : j.Inv) (hframes : j.frames = [frame])
    {domain : CommitmentDomainId} {snapshot : DomainSnapshot} {m : StateMap}
    (hsnapshot : j.snapshots[domain]? = some snapshot) (hintact : Intact S j.source frame snapshot m)
    {key : Bytes} (hlength : key.length ≤ MAX_STATE_KEY_BYTES) (hkey : keyString domain key ∈ S) :
    j.read domain key = .ok (m.writeAll (frame.domainWrites domain))[key]? := by
  obtain ⟨hdomain, hsupported⟩ := hinv.snapshots domain snapshot hsnapshot
  have hroot : snapshot = ⟨domain, stateRoot domain m⟩ := by rw [← hdomain, ← hintact.root]
  have hstrings := hintact.strings
  have hstored := hintact.stored
  rw [hdomain] at hstrings hstored
  rw [ExecutionJournalV1.read, configuredSnapshot_eq_ok.mpr ⟨hsupported, hsnapshot⟩, ok_bind,
    validateKey, ensure_ok hlength, ok_bind, lookup_domainWrites, hframes,
    List.findSome?_cons, List.findSome?_nil]
  cases frame.find domain key with
  | some value => rfl
  | none =>
    rw [Option.getD_none, hroot]
    rw [readValue_stateTree hfree hstrings hstored hlength hkey]
    rfl

theorem read_long {domain : CommitmentDomainId} (hinv : j.Inv) {snapshot : DomainSnapshot}
    (hsnapshot : j.snapshots[domain]? = some snapshot) {key : Bytes} {source : StateSource}
    {root : Hash256} (hlength : ¬ key.length ≤ MAX_STATE_KEY_BYTES) :
    (readValue source ⟨domain, root⟩ key).mapError .state = j.read domain key := by
  obtain ⟨-, hsupported⟩ := hinv.snapshots domain snapshot hsnapshot
  rw [ExecutionJournalV1.read, configuredSnapshot_eq_ok.mpr ⟨hsupported, hsnapshot⟩, ok_bind,
    validateKey, ensure_error hlength, error_bind, readValue, pathKey,
    ensure_error hlength, error_bind, error_bind]
  rfl

theorem published_domains (hinv : j.Inv)
    {published : List (JournalDomainRootsV1 × List StateTransition)}
    (hpublished : List.Forall₂ (fun e r => Published S j.source frame e.2 (m e.1) r.1 r.2)
      j.snapshots.toList published) :
    (published.map Prod.fst).map JournalDomainRootsV1.domain = j.snapshots.keys := by
  rw [← ExtTreeMap.map_fst_toList_eq_keys]
  have hsnapshots : ∀ e ∈ j.snapshots.toList, e.2.domain = e.1 := fun e he =>
    (hinv.snapshots e.1 e.2 (ExtTreeMap.mem_toList_iff_getElem?_eq_some.mp he)).1
  generalize j.snapshots.toList = l at hpublished hsnapshots
  induction hpublished with
  | nil => rfl
  | cons hp _ ih =>
    obtain ⟨hfirst, hrest⟩ := List.forall_mem_cons.mp hsnapshots
    simp only [List.map_cons]
    rw [ih hrest, hp.domain, hfirst]

/-- After all transitions the tree of the written map is there. -/
theorem Published.stored_after (hfree : S.InjOn Crypto.blake3) {snapshot : DomainSnapshot}
    {m : StateMap} {r : JournalDomainRootsV1} {ts all : List StateTransition}
    (hp : Published S source frame snapshot m r ts) (hintact : Intact S source frame snapshot m)
    (hall : ∀ t ∈ all, Faithful t.domain S ⟨t.nodes, t.values⟩) (hsub : ∀ t ∈ ts, t ∈ all) :
    Stored (source.afterAll all) snapshot.domain 0
      (stateTree snapshot.domain (m.writeAll (frame.domainWrites snapshot.domain))) := by
  by_cases hts : ts = []
  · have hroot : r.newRoot = r.oldRoot := by
      by_contra hne
      exact hp.changed.mpr hne hts
    rw [hp.new, hp.old, hintact.root, stateRoot_inj hfree hintact.written hintact.strings] at hroot
    rw [hroot]
    exact hintact.stored.carry (carries_afterAll hfree hall) (tree_known hintact.strings)
  · obtain ⟨t, ht⟩ := List.exists_mem_of_ne_nil _ hts
    exact (hp.stored t ht).carry (carries_afterAll_mem hfree hall (hsub t ht))
      (tree_known hintact.written)

theorem publishes (context : JournalContextV1) (hfree : S.InjOn Crypto.blake3) (hinv : j.Inv)
    (hframes : j.frames = [frame])
    (hintact : ∀ domain snapshot, j.snapshots[domain]? = some snapshot →
      Intact S j.source frame snapshot (m domain))
    {published : List (JournalDomainRootsV1 × List StateTransition)}
    (hpublished : List.Forall₂ (fun e r => Published S j.source frame e.2 (m e.1) r.1 r.2)
      j.snapshots.toList published) :
    Publishes S j ⟨context, published.map Prod.fst, published.flatMap Prod.snd⟩ := by
  -- every root comes from a snapshot
  have hfrom : ∀ r ∈ published, ∃ snapshot : DomainSnapshot,
      j.snapshots[snapshot.domain]? = some snapshot ∧
      Published S j.source frame snapshot (m snapshot.domain) r.1 r.2 := fun r hr => by
    obtain ⟨⟨domain, snapshot⟩, he, hp⟩ := forall₂_mem_left hpublished hr
    have hfind := ExtTreeMap.mem_toList_iff_getElem?_eq_some.mp he
    obtain ⟨rfl, -⟩ := hinv.snapshots domain snapshot hfind
    exact ⟨snapshot, hfind, hp⟩
  have hfaithful : ∀ t ∈ published.flatMap Prod.snd, Faithful t.domain S ⟨t.nodes, t.values⟩ := by
    intro t ht
    obtain ⟨r, hr, ht⟩ := List.mem_flatMap.mp ht
    obtain ⟨snapshot, -, hp⟩ := hfrom r hr
    exact (hp.faithful t ht).2
  constructor
  case domains => exact published_domains hinv hpublished
  case old =>
    intro roots hroots
    obtain ⟨r, hr, rfl⟩ := List.mem_map.mp hroots
    obtain ⟨snapshot, hfind, hp⟩ := hfrom r hr
    rw [hp.domain, hfind, hp.old]
    rfl
  case reads =>
    intro roots hroots key hkey
    obtain ⟨r, hr, rfl⟩ := List.mem_map.mp hroots
    obtain ⟨snapshot, hfind, hp⟩ := hfrom r hr
    have hintact := hintact _ _ hfind
    rw [hp.domain] at hkey ⊢
    by_cases hlength : key.length ≤ MAX_STATE_KEY_BYTES
    · have hstored := hp.stored_after hfree hintact hfaithful
        fun t ht => List.mem_flatMap.mpr ⟨r, hr, ht⟩
      rw [read_written hfree hinv hframes hfind hintact hlength hkey, hp.new,
        readValue_stateTree hfree hintact.written hstored hlength hkey]
      rfl
    · exact read_long hinv hfind hlength
  case changed =>
    intro domain
    constructor
    · rintro ⟨t, ht, rfl⟩
      obtain ⟨r, hr, ht⟩ := List.mem_flatMap.mp ht
      obtain ⟨snapshot, -, hp⟩ := hfrom r hr
      exact ⟨r.1, List.mem_map_of_mem hr, hp.domain.trans (hp.faithful t ht).1.symm,
        hp.changed.mp (List.ne_nil_of_mem ht)⟩
    · rintro ⟨_, hroots, rfl, hchanged⟩
      obtain ⟨r, hr, rfl⟩ := List.mem_map.mp hroots
      obtain ⟨snapshot, -, hp⟩ := hfrom r hr
      obtain ⟨t, ht⟩ := List.exists_mem_of_ne_nil _ (hp.changed.mpr hchanged)
      exact ⟨t, List.mem_flatMap.mpr ⟨r, hr, ht⟩, (hp.faithful t ht).1.trans hp.domain.symm⟩

theorem finalize_published (hfree : S.InjOn Crypto.blake3) (hinv : j.Inv)
    (hframes : j.frames = [frame])
    (hintact : ∀ domain snapshot, j.snapshots[domain]? = some snapshot →
      Intact S j.source frame snapshot (m domain)) :
    ∃ published : List (JournalDomainRootsV1 × List StateTransition),
      j.finalize .committed =
        .ok ⟨j.context, published.map Prod.fst, published.flatMap Prod.snd⟩ ∧
      List.Forall₂ (fun e r => Published S j.source frame e.2 (m e.1) r.1 r.2)
        j.snapshots.toList published := by
  have hmem : ∀ e ∈ j.snapshots.toList, e.1 = e.2.domain ∧ Intact S j.source frame e.2 (m e.1) ∧
      ∃ writeSet, StateWriteSet.new e.1 (frame.domainWrites e.1) = .ok writeSet := by
    rintro ⟨domain, snapshot⟩ he
    have hfind := ExtTreeMap.mem_toList_iff_getElem?_eq_some.mp he
    obtain ⟨rfl, -⟩ := hinv.snapshots domain snapshot hfind
    have hsnapshot := hintact _ _ hfind
    exact ⟨rfl, hsnapshot,
      domainWrites_accepted hfree hinv (by rw [hframes]; exact List.mem_singleton.mpr rfl)
        hsnapshot.keys⟩
  obtain ⟨published, hrun, hpublished⟩ := publish_ok hfree (nodup_toList_keys j.snapshots) hmem
    (p := ⟨frame.writes, [], []⟩) fun _ _ => rfl
  have hempty : ((j.snapshots.toList.map Prod.fst).foldl (·.erase ·) frame.writes).isEmpty := by
    rw [ExtTreeMap.isEmpty_iff]
    refine ExtTreeMap.ext_getElem? fun domain => ?_
    rw [lookup_eraseAll, ExtTreeMap.map_fst_toList_eq_keys]
    split_ifs with hdomain
    · rfl
    · rw [ExtTreeMap.mem_keys] at hdomain
      have hnot : domain ∉ frame.writes := fun hwritten =>
        hdomain (hinv.configured frame (by rw [hframes]; exact List.mem_singleton.mpr rfl) _ hwritten)
      grind
  refine ⟨published, ?_, hpublished⟩
  rw [ExecutionJournalV1.finalize, hframes, ensure_ok List.length_singleton, ok_bind,
    List.head?_cons, orElse_some, ok_bind, hrun, ok_bind, ensure_ok hempty, ok_bind]
  rfl

theorem finalize_committed (hfree : S.InjOn Crypto.blake3) (hinv : j.Inv)
    (hframes : j.frames = [frame])
    (hintact : ∀ domain snapshot, j.snapshots[domain]? = some snapshot →
      Intact S j.source frame snapshot (m domain)) :
    ∃ r, j.finalize .committed = .ok r ∧ Publishes S j r := by
  obtain ⟨published, hfinalize, hpublished⟩ := finalize_published hfree hinv hframes hintact
  exact ⟨_, hfinalize, publishes j.context hfree hinv hframes hintact hpublished⟩

/-- Finalizing publishes exactly what the journal showed, and a reverted journal nothing. -/
theorem finalize_publishes_reads (hfree : S.InjOn Crypto.blake3) {context : JournalContextV1}
    {limits : JournalLimitsV1} {snapshots : List DomainSnapshot} {j₀ : ExecutionJournalV1}
    (hnew : ExecutionJournalV1.new source context snapshots limits = .ok j₀)
    (calls : List JournalCall) (hframes : (j₀.after calls).frames = [frame])
    (hintact : ∀ domain snapshot, (j₀.after calls).snapshots[domain]? = some snapshot →
      Intact S source frame snapshot (m domain)) :
    (∃ r, (j₀.after calls).finalize .committed = .ok r ∧ Publishes S (j₀.after calls) r) ∧
    ∃ r, (j₀.after calls).finalize .reverted = .ok r ∧ r.transitions = [] ∧
      r.roots.map JournalDomainRootsV1.domain = (j₀.after calls).snapshots.keys ∧
      ∀ roots ∈ r.roots, roots.newRoot = roots.oldRoot ∧
        (j₀.after calls).snapshots[roots.domain]?.map DomainSnapshot.root = some roots.oldRoot := by
  obtain ⟨hinv, rfl⟩ := after_inv hnew calls
  refine ⟨finalize_committed hfree hinv hframes hintact, ?_⟩
  generalize j₀.after calls = j at *
  have hreverted : j.finalize .reverted = .ok ⟨j.context, j.snapshots.toList.map fun e =>
      ⟨e.2.domain, e.2.root, e.2.root⟩, []⟩ := by
    rw [ExecutionJournalV1.finalize, hframes, ensure_ok List.length_singleton, ok_bind]
    rfl
  have hsnapshots : ∀ e ∈ j.snapshots.toList, j.snapshots[e.1]? = some e.2 ∧ e.2.domain = e.1 :=
    fun e he => by
      have hfind := ExtTreeMap.mem_toList_iff_getElem?_eq_some.mp he
      exact ⟨hfind, (hinv.snapshots e.1 e.2 hfind).1⟩
  refine ⟨_, hreverted, rfl, ?_, ?_⟩
  · rw [← ExtTreeMap.map_fst_toList_eq_keys, List.map_map]
    exact List.map_congr_left fun e he => (hsnapshots e he).2
  · intro roots hroots
    obtain ⟨e, he, rfl⟩ := List.mem_map.mp hroots
    obtain ⟨hfind, hdomain⟩ := hsnapshots e he
    refine ⟨rfl, ?_⟩
    rw [hdomain, hfind]
    rfl

end

namespace Sample

open Oregon.ContractState.Sample

/-- A put, and a deletion in a child frame. -/
def exchangeCalls : List JournalCall :=
  [.put .wasm [3] [4], .beginFrame, .delete .wasm [1], .commitFrame]

def exchangeFrame : JournalFrame :=
  ⟨insert₂ (insert₂ ∅ .wasm [3] (some [4])) .wasm [1] none, 2, 3⟩

theorem exchangeCalls_frames {source : StateSource} {j₀ : ExecutionJournalV1}
    (hnew : ExecutionJournalV1.new source context [⟨.wasm, stateRoot .wasm oneMap⟩] .default = .ok j₀) :
    (j₀.after exchangeCalls).frames = [exchangeFrame] := by
  obtain rfl := Except.ok.inj hnew
  rfl

theorem exchangeFrame_intact {source : StateSource}
    (hhonest : source.Honest .wasm (tableStrings twoEntries))
    (hstored : Stored source .wasm 0 (stateTree .wasm oneMap)) :
    Intact (tableStrings twoEntries) source exchangeFrame ⟨.wasm, stateRoot .wasm oneMap⟩ oneMap where
  root := rfl
  stored := hstored
  honest := hhonest
  strings := oneMap_strings
  written := exchange_strings
  keys := exchange_keys

end Sample

open Oregon.Execution.Sample Oregon.ContractState.Sample in
/-- A journal over a state with one entry, with calls in two frames. -/
theorem finalize_publishes_reads_sample : ∃ source j₀ r,
    ExecutionJournalV1.new source context [⟨.wasm, stateRoot .wasm oneMap⟩] .default = .ok j₀ ∧
      (j₀.after exchangeCalls).finalize .committed = .ok r ∧
      Publishes (tableStrings twoEntries) (j₀.after exchangeCalls) r := by
  obtain ⟨source, hhonest, hstored⟩ : ∃ source : StateSource,
      source.Honest .wasm (tableStrings twoEntries) ∧
      Stored source .wasm 0 (stateTree .wasm oneMap) := oneMap_stored
  obtain ⟨j₀, hnew⟩ : ∃ j₀, ExecutionJournalV1.new source context
    [⟨.wasm, stateRoot .wasm oneMap⟩] .default = .ok j₀ := ⟨_, rfl⟩
  refine ⟨source, j₀, (finalize_publishes_reads (m := fun _ => oneMap) free hnew exchangeCalls
    (exchangeCalls_frames hnew) fun domain snapshot hfind => ?_).1.imp fun _ => And.intro hnew⟩
  obtain rfl := Except.ok.inj hnew
  change (ExtTreeMap.insert ∅ CommitmentDomainId.wasm _)[domain]? = some snapshot at hfind
  rw [lookup_insert] at hfind
  split_ifs at hfind
  · exact Option.some.inj hfind ▸ exchangeFrame_intact hhonest hstored
  · simp at hfind

end Oregon.Execution
