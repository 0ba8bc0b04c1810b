import Oregon.Proofs.Ledger
import Oregon.Sanity.Sample
import Oregon.Sanity.Walks

/-! Fully validated means replayable. A block is marked fully validated when it is connected,
and the mark outlives its time on the active chain; so the invariant is about the whole tree:
one body for every marked block, such that every marked branch replays from the empty set.
What is stored of a marked block is that body, and a marked block therefore never fails to
connect again. -/

namespace Oregon

open Lib

section Lineages

variable {index index' : Std.ExtTreeMap Hash256 BlockIndexRecord} {body body' : Hash256 → Block}
  {id : Hash256} {r : BlockIndexRecord} {bodies bodies' : List Block}

/-- The bodies of the blocks from the lowest ancestor above the anchor up to `id`. -/
inductive Lineage (index : Std.ExtTreeMap Hash256 BlockIndexRecord) (body : Hash256 → Block) :
    Hash256 → List Block → Prop where
  | anchor {id : Hash256} {r : BlockIndexRecord} (found : index[id]? = some r)
      (bottom : r.height = 0) : Lineage index body id []
  | child {id : Hash256} {r : BlockIndexRecord} {bodies : List Block} (found : index[id]? = some r)
      (high : r.height ≠ 0) (below : Lineage index body r.parent bodies) :
      Lineage index body id (bodies ++ [body id])

theorem Lineage.unique (h : Lineage index body id bodies) (h' : Lineage index body id bodies') :
    bodies = bodies' := by
  induction h generalizing bodies' with
  | anchor found bottom =>
    cases h' with
    | anchor => rfl
    | child found' high => simp_all
  | child found high below ih =>
    cases h' with
    | anchor found' bottom => simp_all
    | child found' high' below' => grind

/-- A lineage stays while the records keep their shape and the bodies of the branch stay. -/
theorem Lineage.congr (h : Lineage index body id bodies)
    (hindex : ∀ (a : Hash256) (r : BlockIndexRecord), index[a]? = some r →
      ∃ r', index'[a]? = some r' ∧ SameShape r r')
    (hbody : ∀ (a : Hash256) (r : BlockIndexRecord), Ancestor index a id → index[a]? = some r →
      r.height ≠ 0 → body' a = body a) :
    Lineage index' body' id bodies := by
  induction h with
  | anchor found bottom =>
    obtain ⟨r', hr', hshape⟩ := hindex _ _ found
    exact .anchor hr' (hshape.2.2.1.trans bottom)
  | @child id r bodies found high below ih =>
    obtain ⟨r', hr', hshape⟩ := hindex _ _ found
    have hbelow := ih fun a q ha => hbody a q (.up found high ha)
    rw [← hbody id r .self found high]
    rw [← hshape.2.1] at hbelow
    exact .child hr' (hshape.2.2.1 ▸ high) hbelow

end Lineages

section Invariant

variable [Crypto] {verifier : SpendVerifier} {s : ChainState} {body : Hash256 → Block}
  {delivered chain : List Block}

/-- Every marked block has its body; marked blocks have marked parents, and marked branches
replay from the empty set. -/
structure Validated (verifier : SpendVerifier) (s : ChainState) (body : Hash256 → Block) : Prop where
  header : ∀ id r, s.db.getIndex id = some r → r.validation = .fullyValidated → r.height ≠ 0 →
    (body id).header = r.header
  stored : ∀ id r, s.db.getIndex id = some r → r.validation = .fullyValidated → r.height ≠ 0 →
    ∀ b, s.db.blocks[id]? = some b → b = body id
  parent : ∀ id r, s.db.getIndex id = some r → r.validation = .fullyValidated → r.height ≠ 0 →
    ∃ p, s.db.getIndex r.parent = some p ∧ p.validation = .fullyValidated
  replayed : ∀ id r, s.db.getIndex id = some r → r.validation = .fullyValidated →
    ∃ bodies utxos, Lineage s.db.blockIndex body id bodies ∧
      replay s.config.params verifier bodies = .ok utxos

/-- The bodies of the active chain are those of its blocks. -/
def Owns (body : Hash256 → Block) (chain : List Block) : Prop :=
  ∀ block ∈ chain, body block.header.blockId = block

theorem Validated.ancestor (h : Validated verifier s body) {a id : Hash256}
    (ha : Ancestor s.db.blockIndex a id) {r : BlockIndexRecord} (hr : s.db.getIndex id = some r)
    (hfull : r.validation = .fullyValidated) :
    ∃ q, s.db.getIndex a = some q ∧ q.validation = .fullyValidated := by
  induction ha generalizing r with
  | self => exact ⟨r, hr, hfull⟩
  | up found high _ ih =>
    obtain rfl := Option.some.inj (found.symm.trans hr)
    obtain ⟨p, hp, hfull'⟩ := h.parent _ _ found hfull high
    exact ih hp hfull'

theorem lineage_active (hs : Consistent s) (hr : Replays verifier delivered s chain)
    (howns : Owns body chain) {height : ℕ} {id : Hash256}
    (hid : s.db.activeIdAtHeight height = some id) :
    Lineage s.db.blockIndex body id (chain.take height) := by
  induction height generalizing id with
  | zero =>
    obtain ⟨r, hrecord, hheight, -, -⟩ := hs.active.record 0 id hid
    exact .anchor hrecord hheight
  | succ k ih =>
    obtain ⟨r, hrecord, hheight, -, hparent⟩ := hs.active.record _ id hid
    have hk : k < chain.length := by
      rw [hr.length]
      exact hs.active.height_le hid
    have hget : chain[k]? = some chain[k] := List.getElem?_eq_getElem hk
    obtain rfl : chain[k].header.blockId = id := Option.some.inj ((hr.active k _ hget).symm.trans hid)
    have htake : chain.take (k + 1) = chain.take k ++ [body chain[k].header.blockId] := by
      rw [howns _ (List.getElem_mem hk), List.take_add_one, hget]
      rfl
    rw [htake]
    exact .child hrecord (by omega) (ih (hparent k rfl))

theorem Replays.take (h : Replays verifier delivered s chain) (height : ℕ) :
    ∃ utxos, replay s.config.params verifier (chain.take height) = .ok utxos := by
  have hreplayed := h.replayed
  rw [← List.take_append_drop height chain] at hreplayed
  obtain ⟨utxos, hutxos, -⟩ := replay_append.mp hreplayed
  exact ⟨utxos, hutxos⟩

/-- The marks stay when no mark is set or lost and no body of a marked block is replaced. -/
theorem Validated.frame {s' : ChainState} (h : Validated verifier s body)
    (hconfig : s'.config = s.config)
    (hindex : ∀ id r, s.db.getIndex id = some r →
      ∃ r', s'.db.getIndex id = some r' ∧ SameShape r r')
    (hkept : ∀ id r, s.db.getIndex id = some r → r.validation = .fullyValidated →
      ∃ r', s'.db.getIndex id = some r' ∧ r'.validation = .fullyValidated)
    (hold : ∀ id r', s'.db.getIndex id = some r' → r'.validation = .fullyValidated →
      ∃ r, s.db.getIndex id = some r ∧ r.validation = .fullyValidated ∧ SameShape r r' ∧
        ∀ b, s'.db.blocks[id]? = some b → s.db.blocks[id]? = some b) :
    Validated verifier s' body where
  header id r' hr' hfull hhigh := by
    obtain ⟨r, hr, hfull, hshape, -⟩ := hold id r' hr' hfull
    rw [h.header id r hr hfull (hshape.2.2.1 ▸ hhigh), hshape.1]
  stored id r' hr' hfull hhigh b hb := by
    obtain ⟨r, hr, hfull, hshape, hblocks⟩ := hold id r' hr' hfull
    exact h.stored id r hr hfull (hshape.2.2.1 ▸ hhigh) b (hblocks b hb)
  parent id r' hr' hfull hhigh := by
    obtain ⟨r, hr, hfull, hshape, -⟩ := hold id r' hr' hfull
    obtain ⟨p, hp, hpfull⟩ := h.parent id r hr hfull (hshape.2.2.1 ▸ hhigh)
    rw [hshape.2.1]
    exact hkept _ p hp hpfull
  replayed id r' hr' hfull := by
    obtain ⟨r, hr, hfull, -, -⟩ := hold id r' hr' hfull
    obtain ⟨bodies, utxos, hlineage, hreplay⟩ := h.replayed id r hr hfull
    exact ⟨bodies, utxos, hlineage.congr hindex fun _ _ _ _ _ => rfl, hconfig ▸ hreplay⟩

end Invariant

section Paths

variable [Crypto] {verifier : SpendVerifier} {s : ChainState} {body : Hash256 → Block}
  {delivered chain : List Block} {block : Block} {index : BlockIndexRecord} {forkHeight : ℕ}
  {path suffix : List ReorgCandidate}

theorem connectCandidates_invalid {params : ConsensusParams} {height : ℕ} {base : UtxoState}
    {delta : UtxoDelta} {e : UtxoError}
    (hheights : ∀ i c, path[i]? = some c → c.index.height = height + i)
    (h : connectCandidates params verifier path base delta = .error (.invalid suffix e)) :
    ∃ connected node rest mid, path = connected ++ node :: rest ∧ suffix = node :: rest ∧
      connectAll params verifier height (connected.map ReorgCandidate.block) base = .ok mid ∧
      mid.connectBlock node.block (height + connected.length) params verifier = .error e := by
  induction path generalizing height base delta with
  | nil => simp [connectCandidates, pure, Except.pure] at h
  | cons node path ih =>
    have hheight : node.index.height = height := hheights 0 node rfl
    rw [connectCandidates, hheight] at h
    cases hconnect : base.connectBlock node.block height params verifier with
    | error e' =>
      rw [hconnect] at h
      obtain ⟨rfl, rfl⟩ := h
      exact ⟨[], node, path, base, rfl, rfl, rfl, hconnect⟩
    | ok result =>
      rw [hconnect] at h
      simp only [bind_eq_error, mapError_eq_error, reduceCtorEq, and_false, exists_false, pure,
        Except.pure, or_false, false_or] at h
      obtain ⟨delta', -, h⟩ := h
      have hnext : ∀ i c, path[i]? = some c → c.index.height = height + 1 + i := fun i c hc => by
        have := hheights (i + 1) c hc
        omega
      obtain ⟨connected, failing, rest, mid, rfl, rfl, hall, hfail⟩ := ih hnext h
      refine ⟨node :: connected, failing, rest, mid, rfl, rfl, ?_, ?_⟩
      · rw [List.map_cons, connectAll, hconnect]
        exact hall
      · grind

theorem PathOk.parent_zero (hp : PathOk s block index forkHeight path) {c : ReorgCandidate}
    (hc : path[0]? = some c) : s.db.activeIdAtHeight forkHeight = some c.index.parent := by
  have hheight := hp.height_get hc
  rcases hp.parent_cases c (List.mem_of_getElem? hc) with ⟨-, hactive⟩ | ⟨prev, hprev, -, hnext⟩
  · exact hactive
  · have := hp.fork_lt prev hprev
    omega

theorem PathOk.parent_succ (hp : PathOk s block index forkHeight path) {i : ℕ}
    {prev c : ReorgCandidate} (hprev : path[i]? = some prev) (hc : path[i + 1]? = some c) :
    c.index.parent = prev.id := by
  have hheight := hp.height_get hc
  rcases hp.parent_cases c (List.mem_of_getElem? hc) with ⟨hlow, -⟩ | ⟨found, hfound, hparent, hnext⟩
  · omega
  · obtain ⟨j, hj⟩ := List.mem_iff_getElem?.mp hfound
    have hfoundHeight := hp.height_get hj
    grind

/-- A marked node of a path is below the delivered block, and its stored body is its own. -/
theorem Validated.node (h : Validated verifier s body) (hc : Candidate s block index)
    (hp : PathOk s block index forkHeight path) {c : ReorgCandidate} (hmem : c ∈ path)
    {r : BlockIndexRecord} (hr : s.db.getIndex c.id = some r)
    (hfull : r.validation = .fullyValidated) : r = c.index ∧ c.block = body c.id := by
  have hfork := hp.fork_lt c hmem
  obtain ⟨below, rfl, hbelow⟩ := hp.last
  rcases List.mem_append.mp hmem with hlow | htop
  · obtain ⟨hrecord, -, hblock⟩ := hbelow c hlow
    obtain rfl := Option.some.inj (hr.symm.trans hrecord)
    exact ⟨rfl, h.stored _ _ hr hfull (by omega) _ hblock⟩
  · rw [List.mem_singleton.mp htop] at hr
    exact absurd hfull (hc.not_full r hr)

/-- Below a marked node of a path all nodes are marked, and their bodies are its lineage. -/
theorem Validated.path_lineage (hs : Consistent s) (h : Validated verifier s body)
    (hr : Replays verifier delivered s chain) (howns : Owns body chain)
    (hc : Candidate s block index) (hp : PathOk s block index forkHeight path) {i : ℕ}
    {c : ReorgCandidate} (hi : path[i]? = some c) {r : BlockIndexRecord}
    (hrecord : s.db.getIndex c.id = some r) (hfull : r.validation = .fullyValidated) :
    Lineage s.db.blockIndex body c.id
      (chain.take forkHeight ++ (path.take (i + 1)).map ReorgCandidate.block) := by
  induction i generalizing c r with
  | zero =>
    obtain ⟨rfl, hbody⟩ := h.node hc hp (List.mem_of_getElem? hi) hrecord hfull
    have hhigh := hp.height_get hi
    have hbelow := lineage_active hs hr howns (hp.parent_zero hi)
    have htake : (path.take 1).map ReorgCandidate.block = [body c.id] := by
      rw [List.take_add_one, hi, ← hbody]
      rfl
    rw [htake]
    exact .child hrecord (by omega) hbelow
  | succ i ih =>
    obtain ⟨rfl, hbody⟩ := h.node hc hp (List.mem_of_getElem? hi) hrecord hfull
    have hhigh := hp.height_get hi
    have hlt : i < path.length := by grind
    have hprev : path[i]? = some path[i] := List.getElem?_eq_getElem hlt
    obtain ⟨p, hparent, hpfull⟩ := h.parent _ _ hrecord hfull (by omega)
    rw [hp.parent_succ hprev hi] at hparent
    have hbelow := ih hprev hparent hpfull
    rw [← hp.parent_succ hprev hi] at hbelow
    have htake : (path.take (i + 1 + 1)).map ReorgCandidate.block =
        (path.take (i + 1)).map ReorgCandidate.block ++ [body c.id] := by
      rw [List.take_add_one, hi, ← hbody, List.map_append]
      rfl
    rw [htake, ← List.append_assoc]
    exact .child hrecord (by omega) hbelow

theorem Validated.full_below (h : Validated verifier s body) (hc : Candidate s block index)
    (hp : PathOk s block index forkHeight path) {i k : ℕ} {low c : ReorgCandidate}
    (hlow : path[i]? = some low) (hi : path[i + k]? = some c) {r : BlockIndexRecord}
    (hrecord : s.db.getIndex c.id = some r) (hfull : r.validation = .fullyValidated) :
    ∃ q, s.db.getIndex low.id = some q ∧ q.validation = .fullyValidated := by
  induction k generalizing c r with
  | zero => simp_all
  | succ k ih =>
    obtain ⟨rfl, -⟩ := h.node hc hp (List.mem_of_getElem? hi) hrecord hfull
    have hhigh := hp.height_get hi
    have hlt : i + k < path.length := by grind
    have hprev : path[i + k]? = some path[i + k] := List.getElem?_eq_getElem hlt
    obtain ⟨p, hparent, hpfull⟩ := h.parent _ _ hrecord hfull (by omega)
    rw [hp.parent_succ hprev hi] at hparent
    exact ih hprev hparent hpfull

/-- A marked block connects again: what a failed reorganization marks was not validated. -/
theorem Rejects.not_full (hs : Consistent s) (h : Validated verifier s body)
    (hr : Replays verifier delivered s chain) (howns : Owns body chain)
    (hfree : CollisionFree (chainTransactions delivered))
    (hrejects : Rejects verifier s block index forkHeight path suffix) :
    ∀ c ∈ suffix, ∀ r, s.db.getIndex c.id = some r → r.validation ≠ .fullyValidated := by
  have hp := hrejects.pathOk
  have hc := hrejects.candidate
  obtain ⟨old, base, delta, e, hplan, hdisconnect, hconnect⟩ := hrejects.utxo
  obtain ⟨base', delta', hdisconnect', hbase, -⟩ :=
    hr.disconnect hs hfree hp.fork_le (reorgPlan_old hplan)
  rw [hdisconnect, Except.ok.injEq, Prod.mk.injEq] at hdisconnect'
  obtain ⟨rfl, rfl⟩ := hdisconnect'
  obtain ⟨connected, node, rest, mid, rfl, rfl, hall, hfail⟩ :=
    connectCandidates_invalid (fun i c => hp.height_get) hconnect
  have hnode : (connected ++ node :: rest)[connected.length]? = some node := by simp
  -- the failing node itself
  have hfirst : ∀ r, s.db.getIndex node.id = some r → r.validation ≠ .fullyValidated := by
    intro r hrecord hfull
    obtain ⟨bodies, utxos, hlineage, hreplay⟩ := h.replayed _ _ hrecord hfull
    have hpath := h.path_lineage hs hr howns hc hp hnode hrecord hfull
    have htake : (connected ++ node :: rest).take (connected.length + 1) = connected ++ [node] := by
      rw [List.append_cons, List.take_left' (by simp)]
    have hlen : (chain.take forkHeight).length = forkHeight := by
      have := hp.fork_le
      have := hr.length
      rw [List.length_take]
      omega
    rw [hlineage.unique hpath, htake, List.map_append, replay_append] at hreplay
    obtain ⟨start, hstart, hrest⟩ := hreplay
    obtain rfl := Except.ok.inj (hbase.symm.trans hstart)
    obtain ⟨mid', hmid, hlast⟩ := connectAll_append.mp hrest
    rw [hlen] at hmid hlast
    obtain rfl := Except.ok.inj (hall.symm.trans hmid)
    simp only [List.map_singleton, connectAll, List.length_map, hfail] at hlast
    cases hlast
  intro c hmem r hrecord hfull
  obtain ⟨k, hk⟩ := List.mem_iff_getElem?.mp hmem
  have hget : (connected ++ node :: rest)[connected.length + k]? = some c := by grind
  obtain ⟨q, hq, hqfull⟩ := h.full_below hc hp hnode hget hrecord hfull
  exact hfirst q hq hqfull

end Paths

section Adoption

variable [Crypto] {verifier : SpendVerifier} {s : ChainState} {body : Hash256 → Block}
  {delivered chain : List Block} {block : Block} {index : BlockIndexRecord} {forkHeight : ℕ}
  {path : List ReorgCandidate} {undos : List BlockUndo} {staged : UtxoState} {delta : UtxoDelta}

/-- The bodies after a path was adopted. -/
def adoptedBody (body : Hash256 → Block) (path : List ReorgCandidate) (id : Hash256) : Block :=
  match path.find? fun c => c.id = id with
  | some c => c.block
  | none => body id

omit [Crypto] in
theorem adoptedBody_of_notMem {id : Hash256} (h : id ∉ path.map ReorgCandidate.id) :
    adoptedBody body path id = body id := by
  have hnone : path.find? (fun c => c.id = id) = none := by simp_all
  rw [adoptedBody, hnone]

omit [Crypto] in
theorem adoptedBody_of_mem (hnodup : (path.map ReorgCandidate.id).Nodup) {c : ReorgCandidate}
    (hc : c ∈ path) : adoptedBody body path c.id = c.block := by
  unfold adoptedBody
  cases hfind : path.find? (fun d => d.id = c.id) with
  | none => grind
  | some d =>
    have hid : d.id = c.id := by grind
    rw [List.inj_on_of_nodup_map hnodup (List.mem_of_find?_eq_some hfind) hc hid]

omit [Crypto] in
theorem adopted_getIndex {id : Hash256} {r : BlockIndexRecord} {tip : Tip}
    (h : (s.reorgTo forkHeight path undos staged delta tip).db.getIndex id = some r) :
    (∃ c ∈ path, c.id = id ∧ r = c.index.validated) ∨
      id ∉ path.map ReorgCandidate.id ∧ s.db.getIndex id = some r := by
  rw [reorgTo_getIndex] at h
  rcases lookup_applyChanges_cases (path.map fun c => (c.id, some c.index.validated))
    s.db.blockIndex id with ⟨hnot, heq⟩ | ⟨_, hmem, heq⟩
  · rw [List.map_map] at hnot
    exact Or.inr ⟨hnot, heq.symm.trans h⟩
  · grind

theorem Owns.adopt (hs : Consistent s) (hr : Replays verifier delivered s chain)
    (howns : Owns body chain) (hc : Candidate s block index)
    (hp : PathOk s block index forkHeight path) :
    Owns (adoptedBody body path) (adoptedChain chain forkHeight path) := by
  intro b hb
  rcases List.mem_append.mp hb with hb | hb
  · have hmem := List.mem_of_mem_take hb
    obtain ⟨height, hheight⟩ := hr.exists_active hmem
    rw [adoptedBody_of_notMem, howns b hmem]
    intro hid
    obtain ⟨c, hc', heq⟩ := List.mem_map.mp hid
    exact hp.not_active hs.active hc c hc' height (heq ▸ hheight)
  · obtain ⟨c, hc', rfl⟩ := List.mem_map.mp hb
    rw [(hp.headers c hc').1, (hp.headers c hc').2]
    exact adoptedBody_of_mem (hp.nodup_ids hc) hc'

theorem Validated.adoptedBody_eq (h : Validated verifier s body) (hc : Candidate s block index)
    (hp : PathOk s block index forkHeight path) {id : Hash256} {r : BlockIndexRecord}
    (hr : s.db.getIndex id = some r) (hfull : r.validation = .fullyValidated) :
    adoptedBody body path id = body id := by
  by_cases hmem : id ∈ path.map ReorgCandidate.id
  · obtain ⟨c, hc', rfl⟩ := List.mem_map.mp hmem
    rw [adoptedBody_of_mem (hp.nodup_ids hc) hc']
    exact (h.node hc hp hc' hr hfull).2
  · exact adoptedBody_of_notMem hmem

theorem Validated.adopt (hs : Consistent s) (h : Validated verifier s body)
    (hr : Replays verifier delivered s chain) (howns : Owns body chain) (hnew : block ∈ delivered)
    (hfree : CollisionFree (chainTransactions delivered))
    (ha : Adopts verifier s block index forkHeight path undos staged delta) :
    Validated verifier (s.reorgTo forkHeight path undos staged delta index.tip)
      (adoptedBody body path) := by
  have hp := ha.pathOk
  have hc := ha.candidate
  have hchange : Change verifier s (.acceptBlock block) _ := .adopted ha
  have hs' := hs.change hchange
  have hr' := hr.adopt hs hnew hfree ha
  have howns' := howns.adopt hs hr hc hp
  have hactive : ∀ c ∈ path, (s.reorgTo forkHeight path undos staged delta
      index.tip).db.activeIdAtHeight c.index.height = some c.id := fun c hmem => by
    rw [reorgTo_activeIdAtHeight]
    exact lookup_adoptedHeights_node hp hmem
  have hfull' : ∀ a q, s.db.getIndex a = some q → q.validation = .fullyValidated →
      ∃ q', (s.reorgTo forkHeight path undos staged delta index.tip).db.getIndex a = some q' ∧
        q'.validation = .fullyValidated := by
    intro a q hq hqfull
    obtain ⟨q', hq', -⟩ := (hchange.evolves hs).known a q hq
    refine ⟨q', hq', ?_⟩
    rcases adopted_getIndex hq' with ⟨c, -, -, rfl⟩ | ⟨-, hsame⟩
    · rfl
    · simp_all
  refine ⟨fun id r hrecord hfull hhigh => ?_, fun id r hrecord hfull hhigh b hb => ?_,
    fun id r hrecord hfull hhigh => ?_, fun id r hrecord hfull => ?_⟩
  · rcases adopted_getIndex hrecord with ⟨c, hmem, rfl, rfl⟩ | ⟨hnot, hold⟩
    · rw [adoptedBody_of_mem (hp.nodup_ids hc) hmem]
      exact (hp.headers c hmem).1
    · rw [adoptedBody_of_notMem hnot]
      exact h.header id r hold hfull hhigh
  · simp only [ChainState.reorgTo, ChainState.prefer_blocks] at hb
    rcases adopted_getIndex hrecord with ⟨c, hmem, rfl, rfl⟩ | ⟨hnot, hold⟩
    · rw [hp.lookup_node hc ReorgCandidate.block _ hmem] at hb
      rw [adoptedBody_of_mem (hp.nodup_ids hc) hmem, Option.some.inj hb]
    · rw [lookup_applyChanges_of_notMem (by rw [List.map_map]; exact hnot)] at hb
      rw [adoptedBody_of_notMem hnot]
      exact h.stored id r hold hfull hhigh b hb
  · rcases adopted_getIndex hrecord with ⟨c, hmem, rfl, rfl⟩ | ⟨hnot, hold⟩
    · have hheight : c.index.height = c.index.height - 1 + 1 := by
        have := hp.fork_lt c hmem
        omega
      obtain ⟨r', hr'', -, -, hparent⟩ := hs'.active.record _ _ (hactive c hmem)
      obtain rfl := Option.some.inj (hrecord.symm.trans hr'')
      obtain ⟨p, hp', -, hpfull, -⟩ := hs'.active.record _ _ (hparent _ hheight)
      exact ⟨p, hp', hpfull⟩
    · obtain ⟨p, hp', hpfull⟩ := h.parent id r hold hfull hhigh
      exact hfull' _ p hp' hpfull
  · rw [reorgTo_config]
    rcases adopted_getIndex hrecord with ⟨c, hmem, rfl, rfl⟩ | ⟨hnot, hold⟩
    · obtain ⟨utxos, hutxos⟩ := hr'.take c.index.height
      grind [reorgTo_config, lineage_active]
    · obtain ⟨bodies, utxos, hlineage, hreplay⟩ := h.replayed id r hold hfull
      refine ⟨bodies, utxos, hlineage.congr (hchange.evolves hs).known fun a q ha' hq _ => ?_, hreplay⟩
      obtain ⟨q', hq', hqfull⟩ := h.ancestor ha' hold hfull
      exact h.adoptedBody_eq hc hp hq' hqfull

end Adoption

section Runs

variable [Crypto] {verifier : SpendVerifier} {s : ChainState} {body : Hash256 → Block}
  {delivered chain : List Block}

theorem Validated.storeHeader (h : Validated verifier s body) {index : BlockIndexRecord}
    (hfresh : Fresh s index) : Validated verifier (s.storeHeader index) body := by
  have hsame : ∀ id r, s.db.getIndex id = some r → (s.storeHeader index).db.getIndex id = some r :=
    fun id r hr => by rw [storeHeader_getIndex, if_neg (hfresh.ne_known hr), hr]
  refine h.frame (ChainState.prefer_config _ _) (fun id r hr => ⟨r, hsame id r hr, .refl r⟩)
    (fun id r hr hfull => ⟨r, hsame id r hr, hfull⟩) fun id r hr hfull => ?_
  rw [storeHeader_getIndex] at hr
  split_ifs at hr
  · rw [← Option.some.inj hr, hfresh.status] at hfull
    cases hfull
  · refine ⟨r, hr, hfull, .refl r, fun b hb => ?_⟩
    rwa [ChainState.storeHeader, ChainState.prefer_blocks] at hb

theorem Validated.storeSide (hs : Consistent s) (h : Validated verifier s body) {block : Block}
    {index : BlockIndexRecord} (hc : Candidate s block index) :
    Validated verifier (s.storeSide block index) body := by
  have hne : ∀ id r, s.db.getIndex id = some r → r.validation = .fullyValidated →
      block.header.blockId ≠ id := by
    rintro id r hr hfull rfl
    exact hc.not_full r hr hfull
  refine h.frame rfl (hc.evolves hs).known (fun id r hr hfull => ⟨r, ?_, hfull⟩)
    fun id r hr hfull => ?_
  · rw [storeSide_getIndex, if_neg (hne id r hr hfull), hr]
  · rw [storeSide_getIndex] at hr
    split_ifs at hr with hid
    · rw [← Option.some.inj hr] at hfull
      cases hc.status.symm.trans hfull
    · refine ⟨r, hr, hfull, .refl r, fun b hb => ?_⟩
      rwa [ChainState.storeSide, lookup_insert, if_neg hid] at hb

theorem Validated.markPath (hs : Consistent s) (h : Validated verifier s body) {block : Block}
    {index : BlockIndexRecord} {forkHeight : ℕ} {path suffix : List ReorgCandidate}
    (hrejects : Rejects verifier s block index forkHeight path suffix)
    (hnot : ∀ c ∈ suffix, ∀ r, s.db.getIndex c.id = some r → r.validation ≠ .fullyValidated) :
    Validated verifier (s.markPath block.header.blockId suffix) body := by
  have hchange : Change verifier s (.acceptBlock block) _ := .marked hrejects
  refine h.frame rfl (hchange.evolves hs).known (fun id r hr hfull => ⟨r, ?_, hfull⟩)
    fun id r hr hfull => ?_
  · refine (lookup_applyChanges_of_notMem fun hid => ?_).trans hr
    grind
  · rcases lookup_applyChanges_cases
      (suffix.map fun c => (c.id, some (c.marked block.header.blockId))) s.db.blockIndex id with
      ⟨-, heq⟩ | ⟨_, hmem, heq⟩
    · exact ⟨r, heq.symm.trans hr, hfull, .refl r, fun _ hb => hb⟩
    · obtain ⟨c, -, hpair⟩ := List.mem_map.mp hmem
      obtain ⟨rfl, rfl⟩ := Prod.mk.inj hpair
      rw [← Option.some.inj (heq.symm.trans hr)] at hfull
      cases hfull

theorem Validated.pruned (h : Validated verifier s body) {db' : OregonDb}
    (hp : Pruned s.db s.tip.height db') : Validated verifier { s with db := db' } body := by
  have hget : ∀ id r, s.db.getIndex id = some r → db'.getIndex id = some
      { r with bodyRetained := r.bodyRetained && keepsBody s.db s.tip.height (id, r) } :=
    fun id r hr => by
      rw [OregonDb.getIndex, hp.index, show s.db.blockIndex[id]? = some r from hr]
      rfl
  refine h.frame rfl (fun id r hr => ⟨_, hget id r hr, rfl, rfl, rfl, rfl⟩)
    (fun id r hr hfull => ⟨_, hget id r hr, hfull⟩) fun id r' hr' hfull => ?_
  obtain ⟨r, hr, rfl⟩ := hp.getIndex_some hr'
  refine ⟨r, hr, hfull, ⟨rfl, rfl, rfl, rfl⟩, fun b hb => ?_⟩
  rw [hp.blocks] at hb
  split_ifs at hb
  exact hb

theorem Validated.change {request : Request} {s' : ChainState} (hs : Consistent s)
    (h : Validated verifier s body) (hr : Replays verifier delivered s chain)
    (howns : Owns body chain) (hnew : ∀ block, request = .acceptBlock block → block ∈ delivered)
    (hfree : CollisionFree (chainTransactions delivered)) (hc : Change verifier s request s') :
    ∃ body' chain', Validated verifier s' body' ∧ Replays verifier delivered s' chain' ∧
      Owns body' chain' := by
  cases hc with
  | idle =>
    refine ⟨body, chain, ⟨h.header, h.stored, h.parent, h.replayed⟩, ?_, howns⟩
    exact hr.frame rfl rfl rfl rfl rfl (fun _ _ hu => hu) fun _ _ hb => Or.inl hb
  | headerStored fresh => exact ⟨body, chain, h.storeHeader fresh, hr.storeHeader _, howns⟩
  | sideStored candidate =>
    exact ⟨body, chain, h.storeSide hs candidate, hr.storeSide hs candidate (hnew _ rfl), howns⟩
  | marked rejects =>
    exact ⟨body, chain, h.markPath hs rejects (rejects.not_full hs h hr howns hfree), hr.markPath _ _,
      howns⟩
  | adopted adopts =>
    exact ⟨_, _, h.adopt hs hr howns (hnew _ rfl) hfree adopts, hr.adopt hs (hnew _ rfl) hfree adopts,
      howns.adopt hs hr adopts.candidate adopts.pathOk⟩
  | pruned pruned => exact ⟨body, chain, h.pruned pruned, hr.pruned pruned, howns⟩

theorem Validated.initial (config : ChainConfig) (body : Hash256 → Block) :
    Validated verifier (.initial config) body := by
  have hanchor : ∀ id r, (ChainState.initial config).db.getIndex id = some r → r.height = 0 := by
    intro id r hr
    rw [initial_getIndex] at hr
    split_ifs at hr
    rw [← Option.some.inj hr]
    rfl
  refine ⟨fun id r hr _ hhigh => absurd (hanchor id r hr) hhigh,
    fun id r hr _ hhigh => absurd (hanchor id r hr) hhigh,
    fun id r hr _ hhigh => absurd (hanchor id r hr) hhigh,
    fun id r hr _ => ⟨[], .new, .anchor hr (hanchor id r hr), rfl⟩⟩

theorem run_validated {config : ChainConfig} {s₀ : ChainState} {calls : List Call}
    (hboot : Bootstrapped config s₀)
    (hfree : CollisionFree (chainTransactions (deliveredBlocks calls))) :
    ∃ body, Validated verifier (run verifier s₀ calls) body := by
  obtain ⟨-, rfl⟩ := bootstrapped_eq hboot
  have hrun : Consistent (run verifier (.initial config) calls) ∧ ∃ body chain,
      Validated verifier (run verifier (.initial config) calls) body ∧
      Replays verifier (deliveredBlocks calls) (run verifier (.initial config) calls) chain ∧
      Owns body chain := by
    refine run_inv (P := fun t => Consistent t ∧ ∃ body chain, Validated verifier t body ∧
      Replays verifier (deliveredBlocks calls) t chain ∧ Owns body chain) ?_ ?_
    · exact ⟨.initial config, fun _ => ⟨config.anchorHeader, []⟩, [], .initial config _,
        .initial config, fun _ hmem => absurd hmem List.not_mem_nil⟩
    · rintro t call hcall ⟨ht, body, chain, hvalidated, hreplays, howns⟩
      have hchange : Change verifier t call.request _ := step_change ht call
      exact ⟨ht.change hchange, hvalidated.change ht hreplays howns
        (fun _ => mem_deliveredBlocks hcall) hfree hchange⟩
  grind

theorem Lineage.length_eq {config : ChainConfig}
    {index : Std.ExtTreeMap Hash256 BlockIndexRecord} {id : Hash256} {bodies : List Block}
    (h : Lineage index body id bodies) (hok : IndexOk config index) {r : BlockIndexRecord}
    (hr : index[id]? = some r) : bodies.length = r.height := by
  induction h generalizing r with
  | anchor found bottom => simp_all
  | @child id r₀ bodies found high below ih =>
    obtain rfl := Option.some.inj (found.symm.trans hr)
    rcases hok.linked id r₀ found with rfl | ⟨p, hp, hchild⟩
    · obtain rfl := Option.some.inj (found.symm.trans hok.anchor)
      exact absurd rfl high
    · rw [List.length_append, ih hp, hchild.height]
      rfl

/-- Fully validated means replayable. In every state of every run one body can be given for every
fully validated block, with its id, such that connecting it on the replay of its ancestors' bodies
from the empty set succeeds; its ancestors are all fully validated, and so is the active chain. -/
theorem fully_validated_replayable {config : ChainConfig} {s₀ : ChainState} {calls : List Call}
    (hboot : Bootstrapped config s₀)
    (hfree : CollisionFree (chainTransactions (deliveredBlocks calls))) :
    (∃ body : Hash256 → Block, ∀ id r, (run verifier s₀ calls).db.getIndex id = some r →
      r.validation = .fullyValidated → id ≠ config.anchorHeader.blockId →
      (∀ a q, Ancestor (run verifier s₀ calls).db.blockIndex a id →
        (run verifier s₀ calls).db.getIndex a = some q → q.validation = .fullyValidated) ∧
      (body id).header.blockId = id ∧
      ∃ ancestors before after undo,
        Lineage (run verifier s₀ calls).db.blockIndex body r.parent ancestors ∧
        replay config.params verifier ancestors = .ok before ∧
        before.connectBlock (body id) r.height config.params verifier = .ok (after, undo)) ∧
    ∀ height id, (run verifier s₀ calls).db.activeIdAtHeight height = some id →
      ∃ r, (run verifier s₀ calls).db.getIndex id = some r ∧ r.validation = .fullyValidated := by
  obtain ⟨hs, hconfig⟩ : Consistent (run verifier s₀ calls) ∧ (run verifier s₀ calls).config = config :=
    run_consistent hboot
  obtain ⟨body, h⟩ : ∃ body, Validated verifier (run verifier s₀ calls) body :=
    run_validated hboot hfree
  refine ⟨⟨body, fun id r hr hfull hne => ?_⟩, fun height id hid => ?_⟩
  · have hhigh : r.height ≠ 0 := fun hzero => hne (hconfig ▸ (hs.index.eq_anchor hr hzero).1)
    refine ⟨fun a q ha hq => ?_, ?_, ?_⟩
    · obtain ⟨q', hq', hqfull⟩ := h.ancestor ha hr hfull
      rw [Option.some.inj (hq.symm.trans hq')]
      exact hqfull
    · rw [h.header id r hr hfull hhigh]
      exact (hs.index.ident id r hr).1
    · obtain ⟨bodies, after, hlineage, hreplay⟩ := h.replayed id r hr hfull
      have hlength := hlineage.length_eq hs.index hr
      cases hlineage with
      | anchor found bottom =>
        obtain rfl := Option.some.inj (found.symm.trans hr)
        exact absurd bottom hhigh
      | @child _ _ ancestors found high below =>
        obtain rfl := Option.some.inj (found.symm.trans hr)
        obtain ⟨before, undo, hbefore, hconnect⟩ := replay_snoc.mp hreplay
        rw [List.length_append, List.length_singleton] at hlength
        rw [hlength, hconfig] at hconnect
        exact ⟨ancestors, before, after, undo, below, hconfig ▸ hbefore, hconnect⟩
  · obtain ⟨r, hr, -, hfull, -⟩ := hs.active.record height id hid
    exact ⟨r, hr, hfull⟩

end Runs

section Sample

open scoped Sample

open Sample

/-- The first block keeps its mark on the branch that was left, and still replays. -/
theorem fully_validated_replayable_left : ∃ (body : Hash256 → Block) (after : UtxoState)
    (undo : BlockUndo),
    (run verifier (.initial config) forkCalls).tip.blockId = rivalSecond.header.blockId ∧
    (body first.header.blockId).header.blockId = first.header.blockId ∧
    UtxoState.new.connectBlock (body first.header.blockId) 1 config.params verifier =
      .ok (after, undo) := by
  have hboot : Bootstrapped config (.initial config) := bootstrapped_initial (by decide +kernel)
  obtain ⟨⟨body, hbody⟩, -⟩ := fully_validated_replayable hboot (show CollisionFree
    (chainTransactions (deliveredBlocks forkCalls)) by decide +kernel)
  have hrecord : (run verifier (.initial config) forkCalls).db.getIndex first.header.blockId =
      some ⟨first.header, anchor.blockId, 1, 1, .fullyValidated, true⟩ := by decide +kernel
  obtain ⟨-, hid, ancestors, before, after, undo, hlineage, hbefore, hconnect⟩ :=
    hbody _ _ hrecord rfl (by decide +kernel)
  have hanchor : (run verifier (.initial config) forkCalls).db.blockIndex[anchor.blockId]? =
      some (anchorRecord config) := by decide +kernel
  obtain rfl : ancestors = [] := hlineage.unique (.anchor hanchor rfl)
  obtain rfl : UtxoState.new = before := Except.ok.inj hbefore
  exact ⟨body, after, undo, by decide +kernel, hid, hconnect⟩

end Sample

end Oregon
