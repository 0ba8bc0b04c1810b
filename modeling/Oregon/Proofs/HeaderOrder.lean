import Oregon.Proofs.Headers
import Oregon.Sanity.Bounds
import Oregon.Sanity.Reached
import Oregon.Sanity.Routing

/-! Header import does not depend on the order of arrival. What is found about a header is
found on the branch below it, and a branch does not change while the index grows; so of two
orders that both bring parents first, each accepts what the other accepts. -/

namespace Oregon

open Lib

section Local

variable [Crypto] {s t : ChainState}

/-- A state in which headers are imported: open, and without a record marked invalid. -/
structure Importing (s : ChainState) : Prop where
  consistent : Consistent s
  healthy : s.sessionHealth = .healthy
  valid : ∀ id r, s.db.getIndex id = some r → r.validation ≠ .invalid

/-- Every record of one state is one of the other. -/
def Extends (s t : ChainState) : Prop :=
  ∀ id r, s.db.getIndex id = some r → t.db.getIndex id = some r

omit [Crypto] in
theorem Extends.unknown (hext : Extends s t) {id : Hash256} (h : t.db.getIndex id = none) :
    s.db.getIndex id = none := by
  refine Option.eq_none_iff_forall_ne_some.mpr fun r hr => ?_
  rw [hext id r hr] at h
  cases h

theorem Importing.sound (hs : Importing s) (id : Hash256) : Sound s.db.blockIndex id :=
  fun a r _ hr => hs.valid a r hr

theorem Importing.checkedIndex_ok (hs : Importing s) {id : Hash256} {r : BlockIndexRecord}
    (hr : s.db.getIndex id = some r) : checkedIndex s.db id = .ok r :=
  Oregon.checkedIndex_ok hs.consistent.index hr (hs.sound id)

theorem walkDown_local (hs : Importing s) (ht : Importing t) (hext : Extends s t) {steps : ℕ}
    {id : Hash256} {r : BlockIndexRecord} (hr : s.db.getIndex id = some r)
    (hle : steps ≤ r.height) : walkDown t.db steps id r = walkDown s.db steps id r := by
  induction steps generalizing id r with
  | zero => rfl
  | succ steps ih =>
    obtain ⟨p, hp, hchild⟩ := hs.consistent.index.parent hr (by omega)
    have hheight := hchild.height
    simp only [walkDown, hs.checkedIndex_ok hp, ht.checkedIndex_ok (hext _ _ hp), ok_bind]
    exact ih hp (by omega)

theorem ancestorIdAtHeight_local (hs : Importing s) (ht : Importing t) (hext : Extends s t)
    {id : Hash256} {r : BlockIndexRecord} (hr : s.db.getIndex id = some r) (height : ℕ) :
    ancestorIdAtHeight t.db id height = ancestorIdAtHeight s.db id height := by
  simp only [ancestorIdAtHeight, hs.checkedIndex_ok hr, ht.checkedIndex_ok (hext _ _ hr), ok_bind,
    walkDown_local hs ht hext hr (Nat.sub_le r.height height)]

theorem timestampsFrom_local (hs : Importing s) (ht : Importing t) (hext : Extends s t) {count : ℕ}
    {id : Hash256} {r : BlockIndexRecord} (hr : s.db.getIndex id = some r) :
    timestampsFrom t.db count id = timestampsFrom s.db count id := by
  induction count generalizing id r with
  | zero => rfl
  | succ count ih =>
    simp only [timestampsFrom, hs.checkedIndex_ok hr, ht.checkedIndex_ok (hext _ _ hr), ok_bind]
    split_ifs with hheight
    · rfl
    · obtain ⟨p, hp, -⟩ := hs.consistent.index.parent hr hheight
      rw [ih hp]

/-- The verdict on a header whose parent is there stays as it is while the index grows. -/
theorem validateCandidateHeader_local (hs : Importing s) (ht : Importing t) (hext : Extends s t)
    (hconfig : t.config = s.config) {header : BlockHeader} {p : BlockIndexRecord}
    (hp : s.db.getIndex header.previousBlock = some p) (engine : Option PowError) :
    validateCandidateHeader t header engine = validateCandidateHeader s header engine := by
  have hkey : keyBlockAt t.db header.previousBlock = keyBlockAt s.db header.previousBlock :=
    funext fun height => by rw [keyBlockAt, keyBlockAt, ancestorIdAtHeight_local hs ht hext hp]
  simp only [validateCandidateHeader, hp, hext _ _ hp, hconfig, hkey, mtpWindow,
    timestampsFrom_local hs ht hext hp, ancestorIdAtHeight_local hs ht hext hp]

theorem validateCandidateHeader_unknown {header : BlockHeader}
    (hp : s.db.getIndex header.previousBlock = none) (engine : Option PowError) :
    validateCandidateHeader s header engine = .error (.unknownParent header.previousBlock) := by
  rw [validateCandidateHeader, hp]
  rfl

theorem validateCandidateHeader_parent {header : BlockHeader} {engine : Option PowError}
    {r : BlockIndexRecord} (h : validateCandidateHeader s header engine = .ok r) :
    ∃ p, s.db.getIndex header.previousBlock = some p := by
  cases hp : s.db.getIndex header.previousBlock with
  | none => rw [validateCandidateHeader_unknown hp] at h; cases h
  | some p => exact ⟨p, rfl⟩

end Local

section Import

variable [Crypto]

/-- What the import of one header does when commits succeed. -/
inductive Imported (s : ChainState) (h : BlockHeader) :
    ChainState → Result HeaderImportOutcome → Prop where
  | known {r : BlockIndexRecord} {outcome : HeaderImportOutcome}
      (record : s.db.getIndex h.blockId = some r) : Imported s h s (.ok outcome)
  | stored {r : BlockIndexRecord} {outcome : HeaderImportOutcome}
      (unknown : s.db.getIndex h.blockId = none)
      (verdict : validateCandidateHeader s h none = .ok r) :
      Imported s h (s.storeHeader r) (.ok outcome)
  | rejected {e : ChainStateError} (unknown : s.db.getIndex h.blockId = none)
      (verdict : validateCandidateHeader s h none = .error e) : Imported s h s (.error e)

theorem perform_stored {s : ChainState} {h : BlockHeader} {r : BlockIndexRecord} (hs : Importing s)
    (hunknown : s.db.getIndex h.blockId = none)
    (hverdict : validateCandidateHeader s h none = .ok r) :
    ∃ outcome, s.perform none (acceptHeaderHealthy s h none) = (s.storeHeader r, .ok outcome) := by
  obtain ⟨rfl, hfresh⟩ := validateCandidateHeader_ok hunknown hverdict
  have hencode : encodeOperations (.putIndex r ::
      preferOp (decide (s.headerTip.cumulativeWork < r.tip.cumulativeWork)) r.tip) = .ok () :=
    forM_eq_ok.mpr (List.forall_mem_cons.mpr ⟨(show StorageOp.Fits (.putIndex r) from
      hfresh.fits hs.consistent.index).encode, fun op hop => (preferOp_fits _ _ op hop).encode⟩)
  have haction : ∃ outcome, acceptHeaderHealthy s r.header none = .ok (.commit
      { batch := .putIndex r ::
          preferOp (decide (s.headerTip.cumulativeWork < r.tip.cumulativeWork)) r.tip
        next := { s with headerTip :=
          if s.headerTip.cumulativeWork < r.tip.cumulativeWork then r.tip else s.headerTip }
        reply := .ok outcome }) := by
    simp only [acceptHeaderHealthy, hunknown, hverdict, ok_bind, decide_eq_true_eq]
    exact ⟨_, rfl⟩
  obtain ⟨outcome, haction⟩ := haction
  rw [haction]
  simp only [ChainState.perform, OregonDb.commit, hencode, ok_bind]
  unfold ChainState.storeHeader preferOp ChainState.prefer
  by_cases hheavy : s.headerTip.cumulativeWork < r.tip.cumulativeWork <;>
    simp [hheavy, OregonDb.apply, pure, Except.pure]

theorem acceptHeader_imported {s : ChainState} (hs : Importing s) (h : BlockHeader) :
    Imported s h (s.acceptHeader h .none).1 (s.acceptHeader h .none).2 := by
  have hallowed : s.ensureMutationAllowed = .ok () := by
    rw [ChainState.ensureMutationAllowed, hs.healthy]
  rw [ChainState.acceptHeader, hallowed]
  change Imported s h (noteFault (s.perform none (acceptHeaderHealthy s h none))).1
    (noteFault (s.perform none (acceptHeaderHealthy s h none))).2
  cases hunknown : s.db.getIndex h.blockId with
  | some r =>
    rw [acceptHeaderHealthy, hunknown]
    dsimp only
    rw [ensure_ok (hs.valid _ _ hunknown)]
    exact .known hunknown
  | none =>
    cases hverdict : validateCandidateHeader s h none with
    | error e =>
      have haction : acceptHeaderHealthy s h none = .error e := by
        simp only [acceptHeaderHealthy, hunknown, hverdict]
        rfl
      rw [haction, ChainState.perform, noteFault_notStorage (validateCandidateHeader_fails s h _ e hverdict)]
      exact .rejected hunknown hverdict
    | ok r =>
      obtain ⟨outcome, hstored⟩ := perform_stored hs hunknown hverdict
      rw [hstored]
      exact .stored hunknown hverdict

/-- The headers in the order of the list, with the replies. -/
def importHeaders : ChainState → List BlockHeader →
    ChainState × List (BlockHeader × Result HeaderImportOutcome)
  | s, [] => (s, [])
  | s, h :: rest =>
    let (s', reply) := s.acceptHeader h .none
    let (t, replies) := importHeaders s' rest
    (t, (h, reply) :: replies)

theorem Imported.fresh {s : ChainState} {h : BlockHeader} {r : BlockIndexRecord}
    (hunknown : s.db.getIndex h.blockId = none)
    (hverdict : validateCandidateHeader s h none = .ok r) :
    Fresh s r ∧ ∀ id, (s.storeHeader r).db.getIndex id =
      if h.blockId = id then some r else s.db.getIndex id := by
  obtain ⟨rfl, hfresh⟩ := validateCandidateHeader_ok hunknown hverdict
  exact ⟨hfresh, storeHeader_getIndex s r⟩

variable {s t : ChainState} {h : BlockHeader} {reply : Result HeaderImportOutcome}

theorem Imported.extends (himport : Imported s h t reply) : Extends s t := by
  cases himport with
  | known record => exact fun _ _ hr => hr
  | rejected unknown verdict => exact fun _ _ hr => hr
  | stored unknown verdict =>
    intro id r hr
    rw [(Imported.fresh unknown verdict).2, if_neg]
    · exact hr
    · rintro rfl
      cases hr.symm.trans unknown

theorem Imported.config_eq (himport : Imported s h t reply) : t.config = s.config := by
  cases himport with
  | known record => rfl
  | rejected unknown verdict => rfl
  | stored unknown verdict => exact ChainState.prefer_config _ _

theorem Imported.importing (hs : Importing s) (himport : Imported s h t reply) : Importing t := by
  cases himport with
  | known record => exact hs
  | rejected unknown verdict => exact hs
  | stored unknown verdict =>
    obtain ⟨hfresh, hget⟩ := Imported.fresh unknown verdict
    refine ⟨hs.consistent.storeHeader hfresh, ?_, fun id r hr => ?_⟩
    · exact (ChainState.prefer_sessionHealth _ _).trans hs.healthy
    · rw [hget] at hr
      split_ifs at hr
      · rw [← Option.some.inj hr, hfresh.status]
        decide
      · exact hs.valid id r hr

/-- The preferred header carries the most work among the one before and the records added. -/
structure Prefers (s t : ChainState) : Prop where
  above : s.headerTip.cumulativeWork ≤ t.headerTip.cumulativeWork
  added : ∀ id r, s.db.getIndex id = none → t.db.getIndex id = some r →
    r.cumulativeWork ≤ t.headerTip.cumulativeWork
  source : t.headerTip.cumulativeWork = s.headerTip.cumulativeWork ∨
    ∃ id r, s.db.getIndex id = none ∧ t.db.getIndex id = some r ∧
      r.cumulativeWork = t.headerTip.cumulativeWork

omit [Crypto] in
theorem Prefers.refl (s : ChainState) : Prefers s s where
  above := le_rfl
  added := by
    simp_all
  source := Or.inl rfl

theorem Prefers.step {t' : ChainState} (hprefers : Prefers s t) (hkept : Extends s t)
    (himport : Imported t h t' reply) : Prefers s t' := by
  have hext := himport.extends
  cases himport with
  | known record => exact hprefers
  | rejected unknown verdict => exact hprefers
  | @stored index _ unknown verdict =>
    have hget := (Imported.fresh unknown verdict).2
    obtain ⟨hold, hnew⟩ := storeHeader_work_le t index
    have hnone : s.db.getIndex h.blockId = none := hkept.unknown unknown
    refine ⟨hprefers.above.trans hold, fun id r hs hr => ?_, ?_⟩
    · rw [hget] at hr
      split_ifs at hr
      · exact Option.some.inj hr ▸ hnew
      · exact (hprefers.added id r hs hr).trans hold
    · rcases prefer_headerTip_cases _ index.tip with ⟨heq, -, -⟩ | ⟨heq, -, -⟩
      · have hsame : (t.storeHeader index).headerTip = t.headerTip := heq
        rw [hsame]
        refine hprefers.source.imp_right ?_
        grind
      · have hself : (t.storeHeader index).headerTip = index.tip := heq
        rw [hself]
        exact Or.inr ⟨_, index, hnone, by rw [hget, if_pos rfl], rfl⟩

/-- What has been found so far: which records were added and by which headers, and that every
header refused so far would be refused again, for the same reason. -/
structure Progress (s : ChainState) (replies : List (BlockHeader × Result HeaderImportOutcome))
    (t : ChainState) : Prop where
  importing : Importing t
  config : t.config = s.config
  kept : Extends s t
  added : ∀ id r, t.db.getIndex id = some r → s.db.getIndex id = some r ∨
    s.db.getIndex id = none ∧ ∃ h ∈ replies.map Prod.fst, h.blockId = id ∧
      validateCandidateHeader t h none = .ok r
  accepted : ∀ h outcome, (h, .ok outcome) ∈ replies → ∃ r, t.db.getIndex h.blockId = some r
  rejected : ∀ h e, (h, .error e) ∈ replies →
    t.db.getIndex h.blockId = none ∧ validateCandidateHeader t h none = .error e
  prefers : Prefers s t

theorem Progress.refl (hs : Importing s) : Progress s [] s where
  importing := hs
  config := rfl
  kept := fun _ _ hr => hr
  added := fun _ _ hr => Or.inl hr
  accepted := fun _ _ hmem => absurd hmem List.not_mem_nil
  rejected := fun _ _ hmem => absurd hmem List.not_mem_nil
  prefers := .refl s

theorem Imported.verdict_ok {t' : ChainState} {g : BlockHeader} {r : BlockIndexRecord}
    (ht : Importing t) (himport : Imported t h t' reply)
    (hverdict : validateCandidateHeader t g none = .ok r) :
    validateCandidateHeader t' g none = .ok r := by
  obtain ⟨p, hp⟩ := validateCandidateHeader_parent hverdict
  rw [validateCandidateHeader_local ht (himport.importing ht) himport.extends himport.config_eq hp]
  exact hverdict

/-- A refused header is refused again after its parent's place has been decided. -/
theorem Imported.verdict_error {t' : ChainState} {g : BlockHeader} {e : ChainStateError}
    (ht : Importing t) (himport : Imported t h t' reply)
    (hparent : t.db.getIndex g.previousBlock = none → t'.db.getIndex g.previousBlock = none)
    (hverdict : validateCandidateHeader t g none = .error e) :
    validateCandidateHeader t' g none = .error e := by
  cases hp : t.db.getIndex g.previousBlock with
  | none => grind [validateCandidateHeader_unknown]
  | some p =>
    rw [validateCandidateHeader_local ht (himport.importing ht) himport.extends himport.config_eq hp]
    exact hverdict

/-- A header that is stored now has not been imported before. -/
theorem Progress.not_before {replies : List (BlockHeader × Result HeaderImportOutcome)}
    {r : BlockIndexRecord} (hprogress : Progress s replies t)
    (hunknown : t.db.getIndex h.blockId = none)
    (hverdict : validateCandidateHeader t h none = .ok r) : h ∉ replies.map Prod.fst := by
  intro hmem
  obtain ⟨⟨g, before⟩, hpair, rfl⟩ := List.mem_map.mp hmem
  cases before with
  | ok outcome =>
    obtain ⟨_, hr⟩ := hprogress.accepted g outcome hpair
    cases hr.symm.trans hunknown
  | error e => cases (hprogress.rejected g e hpair).2.symm.trans hverdict

theorem Progress.step {replies : List (BlockHeader × Result HeaderImportOutcome)} {t' : ChainState}
    (hprogress : Progress s replies t) (himport : Imported t h t' reply)
    (hafter : ∀ g ∈ replies.map Prod.fst, g.previousBlock = h.blockId → h ∈ replies.map Prod.fst)
    (hfree : ∀ g ∈ replies.map Prod.fst, g.blockId = h.blockId → g = h) :
    Progress s (replies ++ [(h, reply)]) t' := by
  have ht := hprogress.importing
  have hok : ∀ {g r}, validateCandidateHeader t g none = .ok r →
      validateCandidateHeader t' g none = .ok r := himport.verdict_ok ht
  have herror := fun {g e} => himport.verdict_error (g := g) (e := e) ht
  have hnames : (replies ++ [(h, reply)]).map Prod.fst = replies.map Prod.fst ++ [h] := by
    rw [List.map_append]
    rfl
  have hadded : ∀ id r, t.db.getIndex id = some r → s.db.getIndex id = some r ∨
      s.db.getIndex id = none ∧ ∃ g ∈ replies.map Prod.fst ++ [h], g.blockId = id ∧
        validateCandidateHeader t' g none = .ok r := by
    intro id r hr
    rcases hprogress.added id r hr with hold | ⟨hnew, g, hg, hid, hverdict⟩
    · exact Or.inl hold
    · exact Or.inr ⟨hnew, g, List.mem_append_left _ hg, hid, hok hverdict⟩
  refine ⟨himport.importing ht, himport.config_eq.trans hprogress.config,
    fun id r hr => himport.extends id r (hprogress.kept id r hr), ?_, ?_, ?_,
    hprogress.prefers.step hprogress.kept himport⟩
  · rw [hnames]
    intro id r hr
    cases himport with
    | known record => exact hadded id r hr
    | rejected unknown verdict => exact hadded id r hr
    | stored unknown verdict =>
      rw [(Imported.fresh unknown verdict).2] at hr
      split_ifs at hr with hid
      · subst hid
        obtain rfl := Option.some.inj hr
        refine Or.inr ⟨?_, h, List.mem_append_right _ (List.mem_singleton_self h), rfl, ?_⟩
        · exact hprogress.kept.unknown unknown
        · exact hok verdict
      · exact hadded id r hr
  · intro g outcome hmem
    rcases List.mem_append.mp hmem with hmem | hmem
    · obtain ⟨r, hr⟩ := hprogress.accepted g outcome hmem
      exact ⟨r, himport.extends _ r hr⟩
    · obtain ⟨rfl, rfl⟩ := Prod.mk.inj (List.mem_singleton.mp hmem)
      cases himport with
      | known record => exact ⟨_, record⟩
      | stored unknown verdict => exact ⟨_, (Imported.fresh unknown verdict).2 _ ▸ if_pos rfl⟩
  · intro g e hmem
    rcases List.mem_append.mp hmem with hmem | hmem
    · obtain ⟨hunknown, hverdict⟩ := hprogress.rejected g e hmem
      have hg : g ∈ replies.map Prod.fst := List.mem_map.mpr ⟨_, hmem, rfl⟩
      cases himport with
      | known record => exact ⟨hunknown, hverdict⟩
      | rejected unknown verdict => exact ⟨hunknown, hverdict⟩
      | stored unknown verdict =>
        have hget := (Imported.fresh unknown verdict).2
        have hbefore := hprogress.not_before unknown verdict
        -- neither the header itself nor its parent is stored this late
        grind
    · obtain ⟨rfl, rfl⟩ := Prod.mk.inj (List.mem_singleton.mp hmem)
      cases himport with
      | rejected unknown verdict => exact ⟨unknown, verdict⟩

/-- Each header comes after its parent. -/
def ParentsFirst (l : List BlockHeader) : Prop :=
  ∀ i (hi : i < l.length), ∀ g ∈ l, g.blockId = l[i].previousBlock → g ∈ l.take i

instance (l : List BlockHeader) : Decidable (ParentsFirst l) :=
  inferInstanceAs (Decidable (∀ i (hi : i < l.length), ∀ g ∈ l,
    g.blockId = l[i].previousBlock → g ∈ l.take i))

/-- Headers of the list with the same id are the same header. -/
def DistinctIds (l : List BlockHeader) : Prop :=
  ∀ g ∈ l, ∀ h ∈ l, g.blockId = h.blockId → g = h

instance (l : List BlockHeader) : Decidable (DistinctIds l) :=
  inferInstanceAs (Decidable (∀ g ∈ l, ∀ h ∈ l, g.blockId = h.blockId → g = h))

theorem ParentsFirst.before {l names rest : List BlockHeader} (hfirst : ParentsFirst l)
    (hlist : l = names ++ h :: rest) :
    ∀ g ∈ names, g.previousBlock = h.blockId → h ∈ names := by
  intro g hg hparent
  obtain ⟨a, b, rfl⟩ := List.append_of_mem hg
  have hsplit : l = a ++ g :: (b ++ h :: rest) := by rw [hlist, List.append_assoc, List.cons_append]
  have hh : h ∈ l := hlist ▸ List.mem_append_right _ (List.mem_cons_self ..)
  subst hsplit
  have ha := hfirst a.length (by simp) h hh (by simpa using hparent.symm)
  rw [List.take_left] at ha
  exact List.mem_append_left _ ha

theorem importHeaders_names (s : ChainState) (l : List BlockHeader) :
    (importHeaders s l).2.map Prod.fst = l := by
  induction l generalizing s with
  | nil => rfl
  | cons h rest ih => exact congrArg (h :: ·) (ih _)

theorem importHeaders_inv {P : List (BlockHeader × Result HeaderImportOutcome) → ChainState → Prop}
    {l rest : List BlockHeader} (replies : List (BlockHeader × Result HeaderImportOutcome))
    (hinit : P replies t) (hlist : l = replies.map Prod.fst ++ rest)
    (himporting : ∀ replies t, P replies t → Importing t)
    (hstep : ∀ replies t h rest reply t', l = replies.map Prod.fst ++ h :: rest → P replies t →
      Imported t h t' reply → P (replies ++ [(h, reply)]) t') :
    P (replies ++ (importHeaders t rest).2) (importHeaders t rest).1 := by
  induction rest generalizing t replies with
  | nil =>
    rw [importHeaders, List.append_nil]
    exact hinit
  | cons h rest ih =>
    have himport := acceptHeader_imported (himporting _ _ hinit) h
    have hnext := ih _ (hstep _ _ _ _ _ _ hlist hinit himport) (by rw [hlist]; simp)
    rw [List.append_assoc] at hnext
    exact hnext

theorem importHeaders_progress {l : List BlockHeader} (hs : Importing s) (hfirst : ParentsFirst l)
    (hfree : DistinctIds l) :
    Progress s (importHeaders s l).2 (importHeaders s l).1 := by
  refine importHeaders_inv (P := Progress s) (l := l) [] (.refl hs) rfl
    (fun _ _ hprogress => hprogress.importing) ?_
  intro replies t h rest reply t' hlist hprogress himport
  refine hprogress.step himport (hfirst.before hlist) fun g hg => ?_
  exact hfree g (hlist ▸ List.mem_append_left _ hg) h
    (hlist ▸ List.mem_append_right _ (List.mem_cons_self ..))

/-- A header that is found good is stored, with the record it gets. -/
theorem Progress.stored {replies : List (BlockHeader × Result HeaderImportOutcome)}
    {r : BlockIndexRecord} (hprogress : Progress s replies t) (hmem : h ∈ replies.map Prod.fst)
    (hfree : ∀ g ∈ replies.map Prod.fst, g.blockId = h.blockId → g = h)
    (hnew : s.db.getIndex h.blockId = none) (hverdict : validateCandidateHeader t h none = .ok r) :
    t.db.getIndex h.blockId = some r := by
  obtain ⟨⟨g, reply⟩, hpair, rfl⟩ := List.mem_map.mp hmem
  cases reply with
  | error e => cases (hprogress.rejected g e hpair).2.symm.trans hverdict
  | ok outcome =>
    obtain ⟨found, hfound⟩ := hprogress.accepted g outcome hpair
    rcases hprogress.added _ _ hfound with hold | ⟨-, g', hg', hid, hverdict'⟩
    · cases hold.symm.trans hnew
    · obtain rfl := hfree g' hg' hid
      rw [hfound, Except.ok.inj (hverdict'.symm.trans hverdict)]

theorem Progress.covers {replies : List (BlockHeader × Result HeaderImportOutcome)}
    {before : List (BlockHeader × Result HeaderImportOutcome)} {last t' : ChainState}
    (hlast : Progress s replies last) (hprogress : Progress s before t) (hext : Extends t last)
    (himport : Imported t h t' reply) (hmem : h ∈ replies.map Prod.fst)
    (hfree : ∀ g ∈ replies.map Prod.fst, g.blockId = h.blockId → g = h) : Extends t' last := by
  cases himport with
  | known record => exact hext
  | rejected unknown verdict => exact hext
  | @stored index _ unknown verdict =>
    have hnew : s.db.getIndex h.blockId = none := hprogress.kept.unknown unknown
    obtain ⟨p, hp⟩ := validateCandidateHeader_parent verdict
    have hverdict : validateCandidateHeader last h none = .ok index := by
      rw [validateCandidateHeader_local hprogress.importing hlast.importing hext
        (hlast.config.trans hprogress.config.symm) hp]
      exact verdict
    intro id r hr
    rw [(Imported.fresh unknown verdict).2] at hr
    split_ifs at hr with hid
    · rw [← hid, ← hr]
      exact hlast.stored hmem hfree hnew hverdict
    · exact hext id r hr

theorem importHeaders_extends {l₁ l₂ : List BlockHeader} (hs : Importing s)
    (hfirst₁ : ParentsFirst l₁) (hfirst₂ : ParentsFirst l₂) (hfree : DistinctIds l₂)
    (hsub : ∀ h ∈ l₁, h ∈ l₂) : Extends (importHeaders s l₁).1 (importHeaders s l₂).1 := by
  have hlast := importHeaders_progress hs hfirst₂ hfree
  refine (importHeaders_inv (P := fun replies t => Progress s replies t ∧
    Extends t (importHeaders s l₂).1) (l := l₁) [] ⟨.refl hs, hlast.kept⟩ rfl
    (fun _ _ hprogress => hprogress.1.importing) ?_).2
  rintro replies t h rest reply t' hlist ⟨hprogress, hext⟩ himport
  have hbefore : ∀ g ∈ replies.map Prod.fst, g ∈ l₂ := fun g hg =>
    hsub g (hlist ▸ List.mem_append_left _ hg)
  have hh : h ∈ l₂ := hsub h (hlist ▸ List.mem_append_right _ (List.mem_cons_self ..))
  refine ⟨hprogress.step himport (hfirst₁.before hlist) fun g hg => hfree g (hbefore g hg) h hh,
    hlast.covers hprogress hext himport ?_ fun g hg => ?_⟩
  · rw [importHeaders_names]
    exact hh
  · rw [importHeaders_names] at hg
    exact hfree g hg h hh

omit [Crypto] in
theorem Prefers.work_le {t₁ t₂ : ChainState} (h₁ : Prefers s t₁) (h₂ : Prefers s t₂)
    (hext : Extends t₁ t₂) : t₁.headerTip.cumulativeWork ≤ t₂.headerTip.cumulativeWork := by
  rcases h₁.source with heq | ⟨id, r, hnone, hr, hwork⟩
  · rw [heq]
    exact h₂.above
  · rw [← hwork]
    exact h₂.added id r hnone (hext id r hr)

/-- Orders that end with the same index have refused the same headers, for the same reasons. -/
theorem Progress.refused {replies₁ replies₂ : List (BlockHeader × Result HeaderImportOutcome)}
    {t₁ t₂ : ChainState} {e : ChainStateError} (h₁ : Progress s replies₁ t₁)
    (h₂ : Progress s replies₂ t₂) (hext₁₂ : Extends t₁ t₂) (hext₂₁ : Extends t₂ t₁)
    (hmem₁ : (h, .error e) ∈ replies₁) (hmem₂ : (h, reply) ∈ replies₂) : reply = .error e := by
  obtain ⟨hunknown, hverdict⟩ := h₁.rejected h e hmem₁
  cases reply with
  | ok outcome =>
    obtain ⟨r, hr⟩ := h₂.accepted h outcome hmem₂
    cases (hext₂₁ _ r hr).symm.trans hunknown
  | error e' =>
    have hverdict' := (h₂.rejected h e' hmem₂).2
    cases hp : t₁.db.getIndex h.previousBlock with
    | some p =>
      rw [validateCandidateHeader_local h₁.importing h₂.importing hext₁₂
        (h₂.config.trans h₁.config.symm) hp] at hverdict'
      exact congrArg Except.error (Except.error.inj (hverdict'.symm.trans hverdict))
    | none =>
      have hp' : t₂.db.getIndex h.previousBlock = none := hext₂₁.unknown hp
      grind [validateCandidateHeader_unknown]

/-- Header import does not depend on the order of arrival. Two orders of the same headers that
bring parents first, imported into the same open state without invalid records, refuse the same
headers for the same reasons, leave the same index and prefer headers of the same work. -/
theorem header_import_order_independent {config : ChainConfig} {l₁ l₂ : List BlockHeader}
    (hreached : Reached config s) (hhealthy : s.sessionHealth = .healthy)
    (hvalid : ∀ id r, s.db.getIndex id = some r → r.validation ≠ .invalid)
    (hperm : l₁.Perm l₂) (hfirst₁ : ParentsFirst l₁) (hfirst₂ : ParentsFirst l₂)
    (hfree : DistinctIds l₁) :
    (∀ h r₁ r₂, (h, r₁) ∈ (importHeaders s l₁).2 → (h, r₂) ∈ (importHeaders s l₂).2 →
      ∀ e, r₁ = .error e ↔ r₂ = .error e) ∧
    (importHeaders s l₁).1.db.blockIndex = (importHeaders s l₂).1.db.blockIndex ∧
    (importHeaders s l₁).1.headerTip.cumulativeWork =
      (importHeaders s l₂).1.headerTip.cumulativeWork := by
  have hs : Importing s := ⟨hreached.consistent.1, hhealthy, hvalid⟩
  have hfree₂ : DistinctIds l₂ := fun g hg h hh =>
    hfree g (hperm.mem_iff.mpr hg) h (hperm.mem_iff.mpr hh)
  have hprogress₁ := importHeaders_progress hs hfirst₁ hfree
  have hprogress₂ := importHeaders_progress hs hfirst₂ hfree₂
  have hext₁₂ := importHeaders_extends hs hfirst₁ hfirst₂ hfree₂ fun h => hperm.mem_iff.mp
  have hext₂₁ := importHeaders_extends hs hfirst₂ hfirst₁ hfree fun h => hperm.mem_iff.mpr
  have hindex : (importHeaders s l₁).1.db.blockIndex = (importHeaders s l₂).1.db.blockIndex :=
    Std.ExtTreeMap.ext_getElem? fun id => Option.ext fun r => ⟨hext₁₂ id r, hext₂₁ id r⟩
  refine ⟨?_, hindex, ?_⟩
  · intro h r₁ r₂ hmem₁ hmem₂ e
    constructor
    · rintro rfl
      exact hprogress₁.refused hprogress₂ hext₁₂ hext₂₁ hmem₁ hmem₂
    · rintro rfl
      exact hprogress₂.refused hprogress₁ hext₂₁ hext₁₂ hmem₂ hmem₁
  · exact le_antisymm (hprogress₁.prefers.work_le hprogress₂.prefers hext₁₂)
      (hprogress₂.prefers.work_le hprogress₁.prefers hext₂₁)

end Import

section Sample

open scoped Sample

open Sample

/-- Two branches from the anchor and a header without its parent, in two orders. -/
theorem header_import_order_independent_fork :
    let one := [first, second, rivalFirst, rivalSecond, badThird].map Block.header
    let other := [badThird, rivalFirst, first, rivalSecond, second].map Block.header
    (importHeaders (.initial config) one).1.db.blockIndex =
      (importHeaders (.initial config) other).1.db.blockIndex ∧
    (importHeaders (.initial config) one).2.map (fun reply => reply.2.isOk) =
      [true, true, true, true, false] := by
  have hconfig : validateConfig config = .ok () := by decide +kernel
  refine ⟨(header_import_order_independent (Reached.opened (bootstrapped_initial hconfig)) rfl ?_
    (by decide +kernel) (by decide +kernel) (by decide +kernel) (by decide +kernel)).2.1,
    by decide +kernel⟩
  intro id r hr
  simp only [ChainState.initial, bootstrapBatch, List.foldl_cons, List.foldl_nil, OregonDb.apply,
    OregonDb.getIndex, lookup_insert, OregonDb.empty] at hr
  split_ifs at hr
  · rw [← Option.some.inj hr]
    decide
  · simp at hr

end Sample

end Oregon
