import Oregon.Lib.Frames
import Oregon.Sanity.Utxo
import Oregon.Spec.Journal

/-! What the operations of the journal do: the newest pending write to a key, the frames and
the counters after each operation, and the invariant that the counters are the true
counts, so that no frame operation fails on its own bookkeeping. -/

namespace Oregon.Execution

open Lib ContractState
open Std (ExtTreeMap LawfulEqOrd)

/-- What an entry counts for in bytes. -/
abbrev entryWeight (key : Bytes) (value : JournalValue) : ℕ :=
  JournalFrame.entryBytes key.length value

/-- The number of entries in a frame. -/
def JournalFrame.count (frame : JournalFrame) : ℕ := weight₂ (fun _ _ => 1) frame.writes

/-- The bytes of the keys and values in a frame. -/
def JournalFrame.bytes (frame : JournalFrame) : ℕ := weight₂ entryWeight frame.writes

/-- A write that a journal accepts. -/
structure Fits (key : Bytes) (value : JournalValue) : Prop where
  key : key.length ≤ MAX_STATE_KEY_BYTES
  value : ∀ v, value = some v → v.length ≤ MAX_STATE_VALUE_BYTES

structure ExecutionJournalV1.Inv (j : ExecutionJournalV1) : Prop where
  frames : j.frames ≠ []
  counted : ∀ frame ∈ j.frames, frame.entries = frame.count ∧ frame.retainedBytes = frame.bytes
  entries : j.liveEntries = (j.frames.map JournalFrame.entries).sum
  bytes : j.retainedBytes = (j.frames.map JournalFrame.retainedBytes).sum
  entries_le : j.liveEntries ≤ j.limits.maxEntries
  bytes_le : j.retainedBytes ≤ j.limits.maxBytes
  configured : ∀ frame ∈ j.frames, ∀ domain ∈ frame.writes, domain ∈ j.snapshots
  fits : ∀ frame ∈ j.frames, ∀ domain key value, frame.find domain key = some value → Fits key value
  snapshots : ∀ domain snapshot, j.snapshots[domain]? = some snapshot →
    snapshot.domain = domain ∧ validateSupportedDomain domain = .ok ()

/-- The newest write to a key in the frames. -/
def ExecutionJournalV1.pending (j : ExecutionJournalV1) (domain : CommitmentDomainId)
    (key : Bytes) : Option JournalValue :=
  j.frames.findSome? fun frame => frame.find domain key

/-- What no operation of a journal changes. -/
structure SameBase (j j' : ExecutionJournalV1) : Prop where
  source : j'.source = j.source
  context : j'.context = j.context
  snapshots : j'.snapshots = j.snapshots
  limits : j'.limits = j.limits

namespace SameBase

variable {j j' j'' : ExecutionJournalV1}

@[refl] theorem refl (j : ExecutionJournalV1) : SameBase j j := ⟨rfl, rfl, rfl, rfl⟩

theorem trans (h : SameBase j j') (h' : SameBase j' j'') : SameBase j j'' :=
  ⟨h'.source.trans h.source, h'.context.trans h.context, h'.snapshots.trans h.snapshots,
    h'.limits.trans h.limits⟩

/-- Reads follow the pending writes. -/
theorem read_eq [Crypto] (h : SameBase j j') {domain : CommitmentDomainId} {key : Bytes}
    (hpending : j'.pending domain key = j.pending domain key) :
    j'.read domain key = j.read domain key := by
  unfold ExecutionJournalV1.pending at hpending
  rw [ExecutionJournalV1.read, ExecutionJournalV1.read, ExecutionJournalV1.configuredSnapshot,
    ExecutionJournalV1.configuredSnapshot, hpending, h.snapshots, h.source]

end SameBase

theorem nextEntries_eq_ok {existing : Option JournalValue} {entries n : ℕ} {e : JournalError} :
    nextEntries existing entries e = .ok n ↔
      entries + (if existing.isSome then 0 else 1) = n ∧ (existing.isSome ∨ n < 2 ^ 64) := by
  cases existing with
  | none => simp [nextEntries, checkedAdd_eq_some]
  | some v => simp [nextEntries, pure_eq_ok]

theorem nextBytes_eq_ok {bytes oldBytes newBytes n : ℕ} {e : JournalError} :
    nextBytes bytes oldBytes newBytes e = .ok n ↔
      oldBytes ≤ bytes ∧ bytes - oldBytes + newBytes = n ∧ n < 2 ^ 64 := by
  simp only [nextBytes, orElse_eq_ok, Option.bind_eq_some_iff, checkedSub_eq_some,
    checkedAdd_eq_some]
  simp

theorem configuredSnapshot_eq_ok {j : ExecutionJournalV1} {domain : CommitmentDomainId}
    {snapshot : DomainSnapshot} : j.configuredSnapshot domain = .ok snapshot ↔
      validateSupportedDomain domain = .ok () ∧ j.snapshots[domain]? = some snapshot := by
  simp only [ExecutionJournalV1.configuredSnapshot, bind_eq_ok, orElse_eq_ok, exists_and_right]
  grind

theorem JournalLimitsV1.entries_le (limits : JournalLimitsV1) : limits.maxEntries ≤ 65536 := by
  have := limits.valid
  simp only [MAX_JOURNAL_ENTRIES] at this
  omega

theorem JournalLimitsV1.bytes_le (limits : JournalLimitsV1) : limits.maxBytes ≤ 16777216 := by
  have := limits.valid
  simp only [MAX_JOURNAL_BYTES] at this
  omega

/-- A write to the newest frame. -/
structure Staged (j : ExecutionJournalV1) (domain : CommitmentDomainId) (key : Bytes)
    (value : JournalValue) (j' : ExecutionJournalV1) : Prop where
  base : SameBase j j'
  total : j'.totalFramesCreated = j.totalFramesCreated
  supported : validateSupportedDomain domain = .ok ()
  configured : domain ∈ j.snapshots
  fits : Fits key value
  frames : ∃ top top' below, j.frames = top :: below ∧ j'.frames = top' :: below ∧
    top'.writes = insert₂ top.writes domain key value ∧
    top'.entries = top.entries + (if (top.find domain key).isSome then 0 else 1) ∧
    j'.liveEntries = j.liveEntries + (if (top.find domain key).isSome then 0 else 1) ∧
    top'.retainedBytes + ((top.find domain key).map (JournalFrame.entryBytes key.length)).getD 0 =
      top.retainedBytes + JournalFrame.entryBytes key.length value ∧
    j'.retainedBytes + ((top.find domain key).map (JournalFrame.entryBytes key.length)).getD 0 =
      j.retainedBytes + JournalFrame.entryBytes key.length value
  entries_le : j'.liveEntries ≤ j'.limits.maxEntries
  bytes_le : j'.retainedBytes ≤ j'.limits.maxBytes

section

variable {j j' : ExecutionJournalV1} {domain : CommitmentDomainId} {key : Bytes}
  {value : JournalValue}

theorem stageWrite_ok (h : j.stageWrite domain key value = .ok j') :
    Staged j domain key value j' := by
  simp only [ExecutionJournalV1.stageWrite, validateKey, bind_eq_ok, ensure_eq_ok, exists_and_left,
    exists_const, configuredSnapshot_eq_ok] at h
  obtain ⟨snapshot, ⟨hsupported, hsnapshot⟩, hkey, _, hvalue, h⟩ := h
  have hfits : Fits key value := by
    refine ⟨hkey, fun v hv => ?_⟩
    subst hv
    simpa [forM_eq_ok, validateValue] using hvalue
  cases hframes : j.frames with
  | nil => simp [hframes] at h
  | cons top below =>
    simp only [hframes, bind_eq_ok, ensure_eq_ok, exists_and_left, exists_const, orElse_eq_ok,
      nextEntries_eq_ok, nextBytes_eq_ok, checkedAdd_eq_some, pure_eq_ok] at h
    obtain ⟨_, ⟨rfl, -⟩, _, ⟨rfl, -⟩, hentries, _, ⟨hle, rfl, -⟩, hbytes, _, ⟨rfl, -⟩, _,
      ⟨hle', rfl, -⟩, rfl⟩ := h
    refine ⟨⟨rfl, rfl, rfl, rfl⟩, rfl, hsupported, (mem_iff_lookup ..).mpr ⟨_, hsnapshot⟩, hfits,
      ⟨top, _, below, hframes, rfl, rfl, rfl, rfl, ?_, ?_⟩, hentries, hbytes⟩
    · dsimp only
      rw [JournalFrame.entryBytes]
      omega
    · dsimp only
      rw [JournalFrame.entryBytes]
      omega

theorem JournalFrame.count_write {frame frame' : JournalFrame}
    (h : frame'.writes = insert₂ frame.writes domain key value) :
    frame'.count = frame.count + (if (frame.find domain key).isSome then 0 else 1) := by
  have hcount := weight₂_insert₂ (fun _ _ => 1) frame.writes domain key value
  rw [JournalFrame.count, JournalFrame.count, h]
  change _ + ((frame.find domain key).map fun _ => 1).getD 0 = _ at hcount
  split_ifs with hsome
  · obtain ⟨old, hold⟩ := Option.isSome_iff_exists.mp hsome
    simp_all
  · simp_all

theorem JournalFrame.bytes_write {frame frame' : JournalFrame}
    (h : frame'.writes = insert₂ frame.writes domain key value) :
    frame'.bytes + ((frame.find domain key).map (JournalFrame.entryBytes key.length)).getD 0 =
      frame.bytes + JournalFrame.entryBytes key.length value := by
  rw [JournalFrame.bytes, JournalFrame.bytes, h]
  exact weight₂_insert₂ entryWeight frame.writes domain key value

theorem Staged.inv (hinv : j.Inv) (h : Staged j domain key value j') : j'.Inv := by
  obtain ⟨top, top', below, hframes, hframes', hwrites, hentries, hlive, hbytes, hretained⟩ :=
    h.frames
  have hall := hinv.counted
  have hconfigured := hinv.configured
  have hfits := hinv.fits
  have hsum := hinv.entries
  have hsum' := hinv.bytes
  simp only [hframes, List.forall_mem_cons] at hall hconfigured hfits
  simp only [hframes, List.map_cons, List.sum_cons] at hsum hsum'
  constructor
  case frames => simp [hframes']
  case counted =>
    rw [hframes', List.forall_mem_cons]
    grind [JournalFrame.count_write, JournalFrame.bytes_write]
  case entries => grind
  case bytes => grind
  case entries_le => exact h.entries_le
  case bytes_le => exact h.bytes_le
  case configured =>
    rw [hframes', List.forall_mem_cons, h.base.snapshots]
    refine ⟨fun d hd => ?_, hconfigured.2⟩
    rw [hwrites, insert₂, ExtTreeMap.mem_insert, LawfulEqOrd.compare_eq_iff_eq] at hd
    rcases hd with rfl | hd
    · exact h.configured
    · exact hconfigured.1 d hd
  case fits =>
    rw [hframes', List.forall_mem_cons]
    refine ⟨fun d k v hfind => ?_, hfits.2⟩
    rw [JournalFrame.find, hwrites, find₂_insert₂] at hfind
    split_ifs at hfind with heq
    · obtain ⟨-, rfl⟩ := heq
      exact Option.some.inj hfind ▸ h.fits
    · exact hfits.1 d k v hfind
  case snapshots =>
    rw [h.base.snapshots]
    exact hinv.snapshots

theorem beginFrame_eq_ok : j.beginFrame = .ok j' ↔
    (j.frames.length + 1 ≤ j.limits.maxDepth ∧ j.totalFramesCreated + 1 ≤ j.limits.maxFrames) ∧
      { j with frames := .default :: j.frames, totalFramesCreated := j.totalFramesCreated + 1 } =
        j' := by
  have hdepth : j.limits.maxDepth < 2 ^ 64 ∧ j.limits.maxFrames < 2 ^ 64 := by
    have := j.limits.valid
    simp only [MAX_JOURNAL_DEPTH, MAX_JOURNAL_FRAMES] at this
    omega
  simp only [ExecutionJournalV1.beginFrame, bind_eq_ok, ensure_eq_ok, exists_and_left, exists_const,
    orElse_eq_ok, checkedAdd_eq_some, pure_eq_ok]
  constructor
  · simp_all
  · rintro ⟨⟨hle, hle'⟩, h⟩
    exact ⟨_, ⟨rfl, by omega⟩, hle, _, ⟨rfl, by omega⟩, hle', h⟩

theorem beginFrame_ok (hinv : j.Inv) (h : j.beginFrame = .ok j') :
    j'.Inv ∧ SameBase j j' ∧ j'.frames = .default :: j.frames := by
  obtain ⟨-, rfl⟩ := beginFrame_eq_ok.mp h
  refine ⟨?_, ⟨rfl, rfl, rfl, rfl⟩, rfl⟩
  constructor
  case frames => simp
  case counted => exact List.forall_mem_cons.mpr ⟨⟨rfl, rfl⟩, hinv.counted⟩
  case entries => simpa [JournalFrame.default] using hinv.entries
  case bytes => simpa [JournalFrame.default] using hinv.bytes
  case entries_le => exact hinv.entries_le
  case bytes_le => exact hinv.bytes_le
  case configured =>
    exact List.forall_mem_cons.mpr ⟨fun _ hd => absurd hd ExtTreeMap.not_mem_empty, hinv.configured⟩
  case fits =>
    refine List.forall_mem_cons.mpr ⟨fun domain key value hfind => ?_, hinv.fits⟩
    simp [JournalFrame.find, JournalFrame.default, find₂] at hfind
  case snapshots => exact hinv.snapshots

/-- The journal with other frames, and the counters for them. -/
def ExecutionJournalV1.withFrames (j : ExecutionJournalV1) (frames : List JournalFrame) :
    ExecutionJournalV1 :=
  { j with frames, liveEntries := (frames.map JournalFrame.entries).sum,
           retainedBytes := (frames.map JournalFrame.retainedBytes).sum }

theorem SameBase.withFrames (j : ExecutionJournalV1) (frames : List JournalFrame) :
    SameBase j (j.withFrames frames) := ⟨rfl, rfl, rfl, rfl⟩

/-- A child frame can always be dropped. -/
theorem revertFrame_ok {child parent : JournalFrame} {below : List JournalFrame} (hinv : j.Inv)
    (hframes : j.frames = child :: parent :: below) :
    j.revertFrame = .ok (j.withFrames (parent :: below)) := by
  have hentries := hinv.entries
  have hbytes := hinv.bytes
  rw [hframes, List.map_cons, List.sum_cons] at hentries hbytes
  have hlength : (child :: parent :: below).length ≠ 1 := by simp
  rw [ExecutionJournalV1.revertFrame, hframes, ensure, if_pos hlength]
  simp only [hentries, hbytes, checkedSub, Nat.le_add_right, if_true, Nat.add_sub_cancel_left,
    orElse_some, ok_bind]
  rfl

theorem ExecutionJournalV1.Inv.below {child parent : JournalFrame} {below : List JournalFrame}
    (hinv : j.Inv) (hframes : j.frames = child :: parent :: below) :
    (j.withFrames (parent :: below)).Inv := by
  have hsub : ∀ frame ∈ parent :: below, frame ∈ j.frames := fun frame hframe => by
    simp_all
  have hentries := hinv.entries
  have hbytes := hinv.bytes
  rw [hframes, List.map_cons, List.sum_cons] at hentries hbytes
  constructor
  case frames => exact List.cons_ne_nil parent below
  case counted => exact fun frame hframe => hinv.counted frame (hsub frame hframe)
  case entries => rfl
  case bytes => rfl
  case entries_le => exact le_trans (by simp only [withFrames]; omega) hinv.entries_le
  case bytes_le => exact le_trans (by simp only [withFrames]; omega) hinv.bytes_le
  case configured => exact fun frame hframe => hinv.configured frame (hsub frame hframe)
  case fits => exact fun frame hframe => hinv.fits frame (hsub frame hframe)
  case snapshots => exact hinv.snapshots

theorem countReplaced_eq {parent : JournalFrame} {domain : CommitmentDomainId}
    {parentWrites : ExtTreeMap Bytes JournalValue} (h : parent.writes[domain]? = some parentWrites)
    {count : ℕ × ℕ} {key : Bytes}
    (hentries : count.1 + weightAt₂ (fun _ _ => 1) parent.writes domain key < 2 ^ 64)
    (hbytes : count.2 + weightAt₂ entryWeight parent.writes domain key < 2 ^ 64) :
    countReplaced parentWrites count key =
      .ok (count.1 + weightAt₂ (fun _ _ => 1) parent.writes domain key,
        count.2 + weightAt₂ entryWeight parent.writes domain key) := by
  have hfind : find₂ parent.writes domain key = parentWrites[key]? := by rw [find₂, h]; rfl
  unfold countReplaced
  simp only [weightAt₂, hfind] at hentries hbytes ⊢
  cases hold : parentWrites[key]? with
  | none => rfl
  | some old =>
    simp only [hold, Option.map_some, Option.getD_some] at hentries hbytes ⊢
    rw [checkedAdd, if_pos hentries, checkedAdd, if_pos hbytes]
    rfl

theorem replacedBy_eq (parent child : JournalFrame)
    (hentries : hiddenWeight (fun _ _ => 1) parent.writes child.writes < 2 ^ 64)
    (hbytes : hiddenWeight entryWeight parent.writes child.writes < 2 ^ 64) :
    replacedBy parent child = .ok (hiddenWeight (fun _ _ => 1) parent.writes child.writes,
      hiddenWeight entryWeight parent.writes child.writes) := by
  -- the counters start at zero
  rw [← Nat.zero_add (hiddenWeight (fun _ _ => 1) _ _)] at hentries ⊢
  rw [← Nat.zero_add (hiddenWeight entryWeight _ _)] at hbytes ⊢
  refine foldlM_count (fun count e he hg hh => ?_) (0, 0) hentries hbytes
  dsimp only
  cases hfind : parent.writes[e.1]? with
  | none =>
    have hnone : ∀ f : Bytes → JournalValue → ℕ, hiddenBy f parent.writes e = 0 := fun f => by
      refine List.sum_eq_zero fun n hn => ?_
      obtain ⟨k, -, rfl⟩ := List.mem_map.mp hn
      rw [weightAt₂, find₂, hfind]
      rfl
    rw [hnone, hnone]
    rfl
  | some parentWrites => exact foldlM_count (fun _ _ _ => countReplaced_eq hfind) count hg hh

/-- A frame with its own counts. -/
def JournalFrame.ofWrites (writes : JournalWrites) : JournalFrame :=
  ⟨writes, weight₂ (fun _ _ => 1) writes, weight₂ entryWeight writes⟩

/-- The frame that a commit leaves in place of the two newest. -/
def JournalFrame.merged (parent child : JournalFrame) : JournalFrame :=
  .ofWrites (merge₂ parent.writes child.writes)

section

variable {child parent : JournalFrame} {below : List JournalFrame}

theorem merged_counts (hinv : j.Inv) (hframes : j.frames = child :: parent :: below) :
    (parent.merged child).entries + hiddenWeight (fun _ _ => 1) parent.writes child.writes =
        parent.entries + child.entries ∧
      (parent.merged child).retainedBytes + hiddenWeight entryWeight parent.writes child.writes =
        parent.retainedBytes + child.retainedBytes := by
  have hall := hinv.counted
  simp only [hframes, List.forall_mem_cons] at hall
  obtain ⟨⟨hcount, hbytes⟩, ⟨hcount', hbytes'⟩, -⟩ := hall
  rw [hcount, hcount', hbytes, hbytes']
  exact ⟨weight₂_merge₂ .., weight₂_merge₂ ..⟩

theorem frame_bounds (hinv : j.Inv) (hframes : j.frames = child :: parent :: below) :
    parent.entries + child.entries ≤ 65536 ∧
      parent.retainedBytes + child.retainedBytes ≤ 16777216 := by
  have hentries := hinv.entries
  have hbytes := hinv.bytes
  have hle := hinv.entries_le.trans j.limits.entries_le
  have hle' := hinv.bytes_le.trans j.limits.bytes_le
  grind

/-- A child frame can always be merged into its parent. -/
theorem commitFrame_ok (hinv : j.Inv) (hframes : j.frames = child :: parent :: below) :
    j.commitFrame = .ok (j.withFrames (parent.merged child :: below)) := by
  obtain ⟨hcount, hbytes⟩ := merged_counts hinv hframes
  obtain ⟨hbound, hbound'⟩ := frame_bounds hinv hframes
  have hentries := hinv.entries
  have hretained := hinv.bytes
  simp only [hframes, List.map_cons, List.sum_cons] at hentries hretained
  have hlength : (child :: parent :: below).length ≠ 1 := by simp
  rw [ExecutionJournalV1.commitFrame, hframes, ensure, if_pos hlength, ok_bind]
  dsimp only
  rw [replacedBy_eq parent child (by omega) (by omega), ok_bind]
  rw [checkedAdd, if_pos (by omega), checkedAdd, if_pos (by omega), Option.bind_some,
    Option.bind_some, checkedSub, if_pos (by omega), checkedSub, if_pos (by omega), checkedSub,
    if_pos (by omega), checkedSub, if_pos (by omega), orElse_some, orElse_some, orElse_some,
    orElse_some, ok_bind, ok_bind, ok_bind, ok_bind]
  have hframe : (⟨merge₂ parent.writes child.writes,
      parent.entries + child.entries - hiddenWeight (fun _ _ => 1) parent.writes child.writes,
      parent.retainedBytes + child.retainedBytes -
        hiddenWeight entryWeight parent.writes child.writes⟩ : JournalFrame) =
      parent.merged child := by
    rw [← hcount, ← hbytes, Nat.add_sub_cancel, Nat.add_sub_cancel]
    rfl
  have hlive : j.liveEntries - hiddenWeight (fun _ _ => 1) parent.writes child.writes =
      ((parent.merged child :: below).map JournalFrame.entries).sum := by
    rw [List.map_cons, List.sum_cons]
    omega
  have hlive' : j.retainedBytes - hiddenWeight entryWeight parent.writes child.writes =
      ((parent.merged child :: below).map JournalFrame.retainedBytes).sum := by
    rw [List.map_cons, List.sum_cons]
    omega
  rw [hframe, hlive, hlive']
  rfl

theorem find_merged (domain : CommitmentDomainId) (key : Bytes) :
    (parent.merged child).find domain key = (child.find domain key).or (parent.find domain key) :=
  find₂_merge₂ ..

theorem ExecutionJournalV1.Inv.merged (hinv : j.Inv)
    (hframes : j.frames = child :: parent :: below) :
    (j.withFrames (parent.merged child :: below)).Inv := by
  obtain ⟨hcount, hbytes⟩ := merged_counts hinv hframes
  have hall := hinv.counted
  have hconfigured := hinv.configured
  have hfits := hinv.fits
  have hentries := hinv.entries
  have hretained := hinv.bytes
  simp only [hframes, List.forall_mem_cons] at hall hconfigured hfits
  simp only [hframes, List.map_cons, List.sum_cons] at hentries hretained
  constructor
  case frames => exact List.cons_ne_nil _ below
  case counted => exact List.forall_mem_cons.mpr ⟨⟨rfl, rfl⟩, hall.2.2⟩
  case entries => rfl
  case bytes => rfl
  case entries_le =>
    refine le_trans ?_ hinv.entries_le
    simp only [withFrames, List.map_cons, List.sum_cons]
    omega
  case bytes_le =>
    refine le_trans ?_ hinv.bytes_le
    simp only [withFrames, List.map_cons, List.sum_cons]
    omega
  case configured =>
    refine List.forall_mem_cons.mpr ⟨fun domain hdomain => ?_, hconfigured.2.2⟩
    rcases mem_merge₂ hdomain with hdomain | hdomain
    · exact hconfigured.1 domain hdomain
    · exact hconfigured.2.1 domain hdomain
  case fits =>
    refine List.forall_mem_cons.mpr ⟨fun domain key value hfind => ?_, hfits.2.2⟩
    grind [find_merged, Option.or_eq_some_iff]
  case snapshots => exact hinv.snapshots

/-- Merging changes no pending write. -/
theorem pending_merged (hframes : j.frames = child :: parent :: below)
    (domain : CommitmentDomainId) (key : Bytes) :
    (j.withFrames (parent.merged child :: below)).pending domain key = j.pending domain key := by
  simp only [ExecutionJournalV1.pending, ExecutionJournalV1.withFrames, hframes,
    List.findSome?_cons, find_merged]
  cases child.find domain key <;> rfl

end

end

theorem addSnapshots_ok {snapshots : List DomainSnapshot}
    {before after : ExtTreeMap CommitmentDomainId DomainSnapshot}
    (h : snapshots.foldlM addSnapshot before = .ok after)
    {domain : CommitmentDomainId} {snapshot : DomainSnapshot}
    (hfind : after[domain]? = some snapshot) :
    before[domain]? = some snapshot ∨
      (snapshot ∈ snapshots ∧ snapshot.domain = domain ∧
        validateSupportedDomain domain = .ok ()) := by
  induction snapshots generalizing before with
  | nil =>
    rw [List.foldlM_nil, pure_eq_ok] at h
    exact Or.inl (h ▸ hfind)
  | cons first snapshots ih =>
    simp only [List.foldlM_cons, addSnapshot, bind_eq_ok, ensure_eq_ok, exists_and_left,
      exists_const, pure_eq_ok] at h
    grind

/-- A new journal. -/
theorem new_ok {source : StateSource} {context : JournalContextV1} {snapshots : List DomainSnapshot}
    {limits : JournalLimitsV1} {j : ExecutionJournalV1}
    (h : ExecutionJournalV1.new source context snapshots limits = .ok j) :
    j.Inv ∧ j.source = source ∧ j.frames = [.default] ∧
      ∀ domain snapshot, j.snapshots[domain]? = some snapshot →
        snapshot ∈ snapshots ∧ snapshot.domain = domain := by
  simp only [ExecutionJournalV1.new, bind_eq_ok, ensure_eq_ok, exists_and_left, exists_const,
    pure_eq_ok] at h
  obtain ⟨-, -, configured, hconfigured, rfl⟩ := h
  have hfind : ∀ domain snapshot, configured[domain]? = some snapshot →
      snapshot ∈ snapshots ∧ snapshot.domain = domain ∧ validateSupportedDomain domain = .ok () :=
    fun domain snapshot hfind => (addSnapshots_ok hconfigured hfind).resolve_left (by simp)
  refine ⟨⟨List.cons_ne_nil _ _, ?_, rfl, rfl, Nat.zero_le _, Nat.zero_le _, ?_, ?_,
    fun domain snapshot h => (hfind domain snapshot h).2⟩, rfl, rfl,
    fun domain snapshot h => ⟨(hfind domain snapshot h).1, (hfind domain snapshot h).2.1⟩⟩
  · exact List.forall_mem_singleton.mpr ⟨rfl, rfl⟩
  · exact List.forall_mem_singleton.mpr fun _ hd => absurd hd ExtTreeMap.not_mem_empty
  · simp [JournalFrame.find, JournalFrame.default, find₂]

end Oregon.Execution
