import Oregon.Proofs.Undo
import Oregon.Sanity.Invariant

/-! Three copies of one set. The UTXO set in memory, the stored records and the replay
of the active chain's bodies agree in every state of every run. The stored records are
only ever changed by the pending changes of a reorganization, so the invariant carries
the undo records along: each is the one that connecting its block returned. -/

namespace Oregon

open Lib

section

variable [Crypto] {verifier : SpendVerifier} {params : ConsensusParams}

/-- The undo records in `db` of a chain's blocks are those of connecting them. -/
def UndosOf (params : ConsensusParams) (verifier : SpendVerifier) (db : OregonDb)
    (chain : List Block) : Prop :=
  ∀ i block undo, chain[i]? = some block → db.getUndo block.header.blockId = some undo →
    ∃ t t', replay params verifier (chain.take i) = .ok t ∧
      t.connectBlock block (i + 1) params verifier = .ok (t', undo)

/-- Disconnecting from the tip down to the fork succeeds, it leads to the replay up to
the fork, and the pending changes follow. -/
theorem disconnect_replay {db : OregonDb} {chain : List Block} {stored : UtxoMap}
    {forkHeight count : ℕ} {staged : UtxoState} {delta : UtxoDelta}
    {old : List (Hash256 × BlockUndo)} (hfree : CollisionFree (chainTransactions chain))
    (hmax : chain.length < 2 ^ 64)
    (hactive : ∀ i block, chain[i]? = some block →
      db.activeIdAtHeight (i + 1) = some block.header.blockId)
    (hundos : UndosOf params verifier db chain) (hle : forkHeight + count ≤ chain.length)
    (hold : loadOldActive db forkHeight count = .ok old)
    (hstaged : replay params verifier (chain.take (forkHeight + count)) = .ok staged)
    (hsync : overlay delta stored = staged.entries) :
    ∃ base delta', disconnectActive staged delta old = .ok (base, delta') ∧
      replay params verifier (chain.take forkHeight) = .ok base ∧
      overlay delta' stored = base.entries := by
  induction count generalizing staged delta old with
  | zero =>
    rw [loadOldActive, pure_eq_ok] at hold
    subst hold
    exact ⟨staged, delta, rfl, hstaged, hsync⟩
  | succ count ih =>
    simp only [loadOldActive, bind_eq_ok, orElse_eq_ok, pure_eq_ok] at hold
    obtain ⟨id, hid, undo, hundo, rest, hrest, rfl⟩ := hold
    have hlt : forkHeight + count < chain.length := by omega
    obtain ⟨block, hblock⟩ : ∃ block, chain[forkHeight + count]? = some block :=
      ⟨_, List.getElem?_eq_getElem hlt⟩
    obtain rfl : id = block.header.blockId := by grind
    obtain ⟨t, t', ht, hconnect⟩ := hundos _ _ undo hblock hundo
    have htake : chain.take (forkHeight + count + 1) = chain.take (forkHeight + count) ++ [block] := by
      rw [List.take_add_one, hblock]
      rfl
    rw [← Nat.add_assoc, htake] at hstaged
    obtain ⟨u, undo', hu, hconnect'⟩ := replay_snoc.mp hstaged
    have hlen : (chain.take (forkHeight + count)).length = forkHeight + count := by
      rw [List.length_take]
      omega
    obtain rfl : t = u := Except.ok.inj (ht.symm.trans hu)
    rw [hlen, hconnect, Except.ok.injEq, Prod.mk.injEq] at hconnect'
    obtain ⟨rfl, rfl⟩ := hconnect'
    have hback : t'.disconnectBlock undo = .ok t :=
      disconnect_connected hu (by omega) (hfree.of_subset fun b hb =>
        List.mem_of_mem_take (htake ▸ hb)) (hlen.symm ▸ hconnect)
    obtain ⟨base, delta', hdisconnect, hreplay⟩ :=
      ih (by omega) hrest hu (overlay_disconnect hback hsync)
    refine ⟨base, delta', ?_, hreplay⟩
    rw [disconnectActive, hback]
    exact hdisconnect

/-- Connecting a path of consecutive heights replays its bodies, and the pending
changes follow. -/
theorem connect_replay {chain : List Block} {stored : UtxoMap} {path : List ReorgCandidate}
    {base staged : UtxoState} {delta delta' : UtxoDelta} {undos : List BlockUndo}
    (hfree : CollisionFree (chainTransactions (chain ++ path.map ReorgCandidate.block)))
    (hmax : chain.length + path.length < 2 ^ 64)
    (hheights : ∀ i c, path[i]? = some c → c.index.height = chain.length + 1 + i)
    (hbase : replay params verifier chain = .ok base)
    (hsync : overlay delta stored = base.entries)
    (hconnect : connectCandidates params verifier path base delta = .ok (staged, delta', undos)) :
    replay params verifier (chain ++ path.map ReorgCandidate.block) = .ok staged ∧
      overlay delta' stored = staged.entries ∧
      ∀ i c undo, path[i]? = some c → undos[i]? = some undo →
        ∃ t t', replay params verifier (chain ++ (path.map ReorgCandidate.block).take i) = .ok t ∧
          t.connectBlock c.block (chain.length + i + 1) params verifier = .ok (t', undo) := by
  induction path generalizing chain base delta undos with
  | nil =>
    obtain ⟨rfl, rfl, rfl⟩ := hconnect
    simpa using ⟨hbase, hsync⟩
  | cons node path ih =>
    obtain ⟨mid, undo, delta₁, undos₁, hmid, hdelta, hrest, rfl⟩ := connectCandidates_cons_ok hconnect
    have hheight : node.index.height = chain.length + 1 := hheights 0 node rfl
    rw [hheight] at hmid
    rw [List.map_cons, List.append_cons] at hfree ⊢
    rw [List.length_cons] at hmax
    obtain ⟨rfl, hagree⟩ := connect_agrees hbase (by omega) (hfree.of_subset fun b hb =>
      List.mem_append_left _ hb) hmid
    have hnext : replay params verifier (chain ++ [node.block]) = .ok mid :=
      replay_snoc.mpr ⟨base, _, hbase, hmid⟩
    obtain ⟨hreplay, hoverlay, hundos⟩ := ih hfree (by simp; omega) (fun i c hc => by
      have := hheights (i + 1) c hc
      simp
      omega) hnext (overlay_connect hdelta hagree hsync) hrest
    refine ⟨hreplay, hoverlay, fun i c u hc hu => ?_⟩
    cases i with
    | zero =>
      obtain rfl := Option.some.inj hc
      obtain rfl := Option.some.inj hu
      exact ⟨base, mid, by simpa using hbase, hmid⟩
    | succ i =>
      obtain ⟨t, t', ht, htc⟩ := hundos i c u hc hu
      refine ⟨t, t', ?_, ?_⟩
      · rw [List.take_succ_cons, List.append_cons]
        exact ht
      · rw [List.length_append, List.length_singleton] at htc
        rwa [show chain.length + (i + 1) + 1 = chain.length + 1 + i + 1 by omega]

/-- The three copies of the set agree on `chain`, the active chain's bodies, all of which
were among the delivered blocks. -/
structure Replays (verifier : SpendVerifier) (delivered : List Block) (s : ChainState)
    (chain : List Block) : Prop where
  length : chain.length = s.tip.height
  active : ∀ i block, chain[i]? = some block →
    s.db.activeIdAtHeight (i + 1) = some block.header.blockId
  stored : s.db.utxo = s.utxos.entries
  replayed : replay s.config.params verifier chain = .ok s.utxos
  bodies : ∀ block ∈ chain, ∀ b, s.db.blocks[block.header.blockId]? = some b → b = block
  undos : UndosOf s.config.params verifier s.db chain
  known : ∀ block ∈ chain, block ∈ delivered
  kept : ∀ (id : Hash256) (b : Block), s.db.blocks[id]? = some b → b ∈ delivered

variable {s : ChainState} {delivered chain : List Block}

theorem Replays.exists_active (h : Replays verifier delivered s chain) {block : Block}
    (hb : block ∈ chain) : ∃ height, s.db.activeIdAtHeight height = some block.header.blockId := by
  obtain ⟨i, hi⟩ := List.mem_iff_getElem?.mp hb
  exact ⟨i + 1, h.active i block hi⟩

/-- The set stays when the active chain does: undo records may only go, and bodies may
go or come for blocks that are not active. -/
theorem Replays.frame {s' : ChainState}
    (h : Replays verifier delivered s chain) (hconfig : s'.config = s.config)
    (htip : s'.tip = s.tip) (hutxos : s'.utxos = s.utxos) (hutxo : s'.db.utxo = s.db.utxo)
    (hactive : s'.db.activeHeight = s.db.activeHeight)
    (hundo : ∀ id undo, s'.db.getUndo id = some undo → s.db.getUndo id = some undo)
    (hblocks : ∀ (id : Hash256) (b : Block), s'.db.blocks[id]? = some b →
      s.db.blocks[id]? = some b ∨
        b ∈ delivered ∧ ∀ height, s.db.activeIdAtHeight height ≠ some id) :
    Replays verifier delivered s' chain where
  length := h.length.trans (congrArg Tip.height htip.symm)
  active i block hi := by
    rw [OregonDb.activeIdAtHeight, hactive]
    exact h.active i block hi
  stored := by rw [hutxo, hutxos, h.stored]
  replayed := by rw [hconfig, hutxos, h.replayed]
  bodies block hblock b hb := by
    rcases hblocks _ b hb with hold | ⟨-, hside⟩
    · exact h.bodies block hblock b hold
    · obtain ⟨height, hheight⟩ := h.exists_active hblock
      exact absurd hheight (hside height)
  undos i block undo hi hu := by
    rw [hconfig]
    exact h.undos i block undo hi (hundo _ _ hu)
  known := h.known
  kept id b hb := by
    rcases hblocks id b hb with hold | ⟨hnew, -⟩
    · exact h.kept id b hold
    · exact hnew

variable {block : Block} {index : BlockIndexRecord} {forkHeight : ℕ} {path : List ReorgCandidate}
  {undos : List BlockUndo} {staged : UtxoState} {delta : UtxoDelta}

theorem Adopts.blocks_delivered (h : Replays verifier delivered s chain)
    (ha : Adopts verifier s block index forkHeight path undos staged delta)
    (hnew : block ∈ delivered) :
    ∀ c ∈ path, c.block ∈ delivered := by
  obtain ⟨below, rfl, hbelow⟩ := ha.pathOk.last
  intro c hc
  rcases List.mem_append.mp hc with hc | hc
  · exact h.kept _ _ (hbelow c hc).2.2
  · rw [List.mem_singleton.mp hc]
    exact hnew

/-- The chain after a path was adopted. -/
def adoptedChain (chain : List Block) (forkHeight : ℕ) (path : List ReorgCandidate) : List Block :=
  chain.take forkHeight ++ path.map ReorgCandidate.block

omit [Crypto] in
theorem adoptedChain_get {i : ℕ} {b : Block} (hfork : forkHeight ≤ chain.length)
    (hb : (adoptedChain chain forkHeight path)[i]? = some b) :
    (i < forkHeight ∧ chain[i]? = some b) ∨
      ∃ j c, i = forkHeight + j ∧ path[j]? = some c ∧ c.block = b := by
  have hlen : (chain.take forkHeight).length = forkHeight := by
    rw [List.length_take]
    omega
  unfold adoptedChain at hb
  grind

/-- The old branch of a reorganization can be disconnected once its undo records are
loaded. -/
theorem Replays.disconnect (hs : Consistent s) (h : Replays verifier delivered s chain)
    (hfree : CollisionFree (chainTransactions delivered)) (hfork : forkHeight ≤ s.tip.height)
    {old : List (Hash256 × BlockUndo)}
    (hold : loadOldActive s.db forkHeight (s.tip.height - forkHeight) = .ok old) :
    ∃ base delta₀, disconnectActive s.utxos ∅ old = .ok (base, delta₀) ∧
      replay s.config.params verifier (chain.take forkHeight) = .ok base ∧
      overlay delta₀ s.db.utxo = base.entries := by
  obtain ⟨r, hr, htip⟩ := hs.active.tipRecord
  have hlength := h.length
  have hmax : chain.length < 2 ^ 64 := by
    rw [hlength, ← htip]
    exact hs.index.height_range hr
  have hwhole : chain.take (forkHeight + (s.tip.height - forkHeight)) = chain :=
    List.take_of_length_le (by omega)
  exact disconnect_replay (hfree.of_subset h.known) hmax h.active h.undos (by omega) hold
    (by rw [hwhole, h.replayed]) h.stored

theorem Replays.adopt (hs : Consistent s) (h : Replays verifier delivered s chain)
    (hnew : block ∈ delivered)
    (hfree : CollisionFree (chainTransactions delivered))
    (ha : Adopts verifier s block index forkHeight path undos staged delta) :
    Replays verifier delivered (s.reorgTo forkHeight path undos staged delta index.tip)
      (adoptedChain chain forkHeight path) := by
  have hp := ha.pathOk
  have hfork : forkHeight ≤ chain.length := h.length ▸ hp.fork_le
  have hlen : (chain.take forkHeight).length = forkHeight := by
    rw [List.length_take]
    omega
  have hknown : ∀ b ∈ adoptedChain chain forkHeight path, b ∈ delivered := by
    intro b hb
    rcases List.mem_append.mp hb with hb | hb
    · exact h.known b (List.mem_of_mem_take hb)
    · obtain ⟨c, hc, rfl⟩ := List.mem_map.mp hb
      exact ha.blocks_delivered h hnew c hc
  have hids : ∀ c ∈ path, c.block.header.blockId = c.id := fun c hc => by
    rw [(hp.headers c hc).1, (hp.headers c hc).2]
  have hmax : forkHeight + path.length < 2 ^ 64 := by
    obtain ⟨p, -, hchild⟩ := ha.candidate.link hs.active hs.index
    rw [hp.length_eq]
    exact hchild.range
  obtain ⟨old, base, delta₀, hold, hdisconnect, hconnect⟩ := ha.utxo
  obtain ⟨base', delta₀', hdisconnect', hbase, hsync⟩ := h.disconnect hs hfree hp.fork_le hold
  rw [hdisconnect, Except.ok.injEq, Prod.mk.injEq] at hdisconnect'
  obtain ⟨rfl, rfl⟩ := hdisconnect'
  obtain ⟨hreplay, hoverlay, hundos⟩ := connect_replay (hfree.of_subset hknown) (by omega)
    (fun i c hc => by rw [hlen]; exact hp.height_get hc) hbase hsync hconnect
  refine ⟨?_, fun i b hb => ?_, ?_, ?_, fun b hb b' hb' => ?_, fun i b undo hb hu => ?_, hknown,
    fun id b hb => ?_⟩
  · rw [reorgTo_tip, adoptedChain, List.length_append, hlen, List.length_map]
    exact hp.length_eq
  · rw [reorgTo_activeIdAtHeight]
    rcases adoptedChain_get hfork hb with ⟨hi, hb⟩ | ⟨j, c, rfl, hc, rfl⟩
    · rw [lookup_adoptedHeights_le hp hi]
      exact h.active i b hb
    · have hmem := List.mem_of_getElem? hc
      rw [hids c hmem, ← lookup_adoptedHeights_node hp hmem, hp.height_get hc]
      congr 1
      omega
  · simp only [ChainState.reorgTo, ChainState.prefer_utxo, ChainState.prefer_utxos]
    exact hoverlay
  · simp only [ChainState.reorgTo, ChainState.prefer_config, ChainState.prefer_utxos]
    exact hreplay
  · simp only [ChainState.reorgTo, ChainState.prefer_blocks] at hb'
    rcases List.mem_append.mp hb with hb | hb
    · have hb := List.mem_of_mem_take hb
      obtain ⟨height, hheight⟩ := h.exists_active hb
      rw [lookup_applyChanges_of_notMem] at hb'
      · exact h.bodies b hb b' hb'
      · rw [List.map_map]
        intro hin
        obtain ⟨c, hc, heq⟩ := List.mem_map.mp hin
        refine hp.not_active hs.active ha.candidate c hc height ?_
        simp_all
    · obtain ⟨c, hc, rfl⟩ := List.mem_map.mp hb
      rw [hids c hc, hp.lookup_node ha.candidate ReorgCandidate.block _ hc] at hb'
      exact (Option.some.inj hb').symm
  · simp only [ChainState.reorgTo, ChainState.prefer_config]
    simp only [OregonDb.getUndo, ChainState.reorgTo, ChainState.prefer_undo] at hu
    rcases adoptedChain_get hfork hb with ⟨hi, hb⟩ | ⟨j, c, rfl, hc, rfl⟩
    · have htake : (adoptedChain chain forkHeight path).take i = chain.take i := by
        rw [adoptedChain, List.take_append_of_le_length (by omega), List.take_take,
          Nat.min_eq_left hi.le]
      rw [htake]
      rw [lookup_applyChanges_of_notMem] at hu
      · exact h.undos i b undo hb hu
      · rw [List.map_map]
        intro hin
        obtain ⟨p, hmem, heq⟩ := List.mem_map.mp hin
        refine hp.not_active hs.active ha.candidate p.1 (List.of_mem_zip hmem).1 (i + 1) ?_
        rw [h.active i b hb]
        exact congrArg some heq.symm
    · have hmem := List.mem_of_getElem? hc
      obtain ⟨undo', hundo', hlookup⟩ := lookup_pathUndos ha.candidate hp
        (connectCandidates_length hconnect) hc
      rw [hids c hmem, hlookup] at hu
      obtain rfl := Option.some.inj hu
      obtain ⟨t, t', ht, htc⟩ := hundos j c undo' hc hundo'
      rw [hlen] at htc
      refine ⟨t, t', ?_, htc⟩
      rw [adoptedChain, List.take_append, hlen, List.take_of_length_le (by omega),
        Nat.add_sub_cancel_left]
      exact ht
  · simp only [ChainState.reorgTo, ChainState.prefer_blocks] at hb
    rcases lookup_applyChanges_cases (path.map fun c => (c.id, some c.block)) s.db.blocks id with
      ⟨-, heq⟩ | ⟨_, hmem, heq⟩
    · exact h.kept id b (heq.symm.trans hb)
    · obtain ⟨c, hc, hpair⟩ := List.mem_map.mp hmem
      obtain ⟨rfl, rfl⟩ := Prod.mk.inj hpair
      obtain rfl := Option.some.inj (heq.symm.trans hb)
      exact ha.blocks_delivered h hnew c hc

theorem Replays.storeHeader (h : Replays verifier delivered s chain) (index : BlockIndexRecord) :
    Replays verifier delivered (s.storeHeader index) chain := by
  refine h.frame ?_ ?_ ?_ ?_ ?_ (fun id u hu => ?_) fun id b hb => Or.inl ?_ <;>
    simp_all [ChainState.storeHeader, OregonDb.getUndo]

theorem Replays.storeSide (hs : Consistent s) (h : Replays verifier delivered s chain)
    (hc : Candidate s block index) (hnew : block ∈ delivered) :
    Replays verifier delivered (s.storeSide block index) chain := by
  refine h.frame rfl rfl rfl rfl rfl (fun _ _ hu => hu) fun id b hb => ?_
  rw [ChainState.storeSide, lookup_insert] at hb
  split_ifs at hb with hid
  · obtain rfl := Option.some.inj hb
    exact Or.inr ⟨hnew, hid ▸ hc.not_active hs.active⟩
  · exact Or.inl hb

theorem Replays.markPath (h : Replays verifier delivered s chain) (id : Hash256)
    (suffix : List ReorgCandidate) : Replays verifier delivered (s.markPath id suffix) chain :=
  h.frame rfl rfl rfl rfl rfl (fun _ _ hu => hu) fun _ _ hb => Or.inl hb

theorem Replays.pruned (h : Replays verifier delivered s chain) {db' : OregonDb}
    (hp : Pruned s.db s.tip.height db') : Replays verifier delivered { s with db := db' } chain := by
  refine h.frame rfl rfl rfl ?_ ?_ (fun id u hu => ?_) fun id b hb => Or.inl ?_
  · rw [hp.frame]
  · rw [hp.frame]
  · rw [OregonDb.getUndo, hp.undo] at hu
    split_ifs at hu
    exact hu
  · rw [hp.blocks] at hb
    split_ifs at hb
    exact hb

theorem Replays.change {request : Request} {s' : ChainState} (hs : Consistent s)
    (h : Replays verifier delivered s chain)
    (hnew : ∀ block, request = .acceptBlock block → block ∈ delivered)
    (hfree : CollisionFree (chainTransactions delivered)) (hc : Change verifier s request s') :
    ∃ chain', Replays verifier delivered s' chain' := by
  cases hc with
  | idle => exact ⟨chain, h.frame rfl rfl rfl rfl rfl (fun _ _ hu => hu) fun _ _ hb => Or.inl hb⟩
  | headerStored => exact ⟨chain, h.storeHeader _⟩
  | sideStored candidate => exact ⟨chain, h.storeSide hs candidate (hnew _ rfl)⟩
  | marked => exact ⟨chain, h.markPath _ _⟩
  | adopted adopts => exact ⟨_, h.adopt hs (hnew _ rfl) hfree adopts⟩
  | pruned pruned => exact ⟨chain, h.pruned pruned⟩

/-- The blocks that some calls deliver. -/
def deliveredBlocks (calls : List Call) : List Block :=
  calls.filterMap fun call =>
    match call.request with
    | .acceptBlock block => some block
    | _ => none

omit [Crypto] in
theorem mem_deliveredBlocks {calls : List Call} {call : Call} {block : Block} (hc : call ∈ calls)
    (hb : call.request = .acceptBlock block) : block ∈ deliveredBlocks calls :=
  List.mem_filterMap.mpr ⟨call, hc, by rw [hb]⟩

theorem Replays.initial (config : ChainConfig) :
    Replays verifier delivered (.initial config) [] := by
  refine ⟨rfl, by simp, rfl, rfl, by simp, by simp [UndosOf], by simp, fun id b hb => ?_⟩
  change (∅ : Std.ExtTreeMap Hash256 Block)[id]? = some b at hb
  simp at hb

theorem run_replays {config : ChainConfig} {s₀ : ChainState} {calls : List Call}
    (hboot : Bootstrapped config s₀)
    (hfree : CollisionFree (chainTransactions (deliveredBlocks calls))) :
    Consistent (run verifier s₀ calls) ∧
      ∃ chain, Replays verifier (deliveredBlocks calls) (run verifier s₀ calls) chain := by
  obtain ⟨-, rfl⟩ := bootstrapped_eq hboot
  refine run_inv (P := fun t => Consistent t ∧ ∃ chain, Replays verifier (deliveredBlocks calls) t chain)
    ⟨.initial config, [], .initial config⟩ ?_
  rintro t call hcall ⟨ht, chain, hchain⟩
  have hchange : Change verifier t call.request _ := step_change ht call
  exact ⟨ht.change hchange, hchain.change ht (fun _ => mem_deliveredBlocks hcall) hfree hchange⟩

/-- In every state of every run the set in memory is the stored one and the replay of
the active chain's bodies. A body that was pruned is the one that was delivered; one
that is still stored is the one that was replayed. -/
theorem utxos_replay_active_chain {config : ChainConfig} {s₀ : ChainState} {calls : List Call}
    (hboot : Bootstrapped config s₀)
    (hfree : CollisionFree (chainTransactions (deliveredBlocks calls))) :
    (run verifier s₀ calls).utxos.entries = (run verifier s₀ calls).db.utxo ∧
    ∃ chain : List Block, chain.length = (run verifier s₀ calls).tip.height ∧
      (∀ i block, chain[i]? = some block →
        (run verifier s₀ calls).db.activeIdAtHeight (i + 1) = some block.header.blockId ∧
        block ∈ deliveredBlocks calls ∧
        ∀ b, (run verifier s₀ calls).db.blocks[block.header.blockId]? = some b → b = block) ∧
      replay config.params verifier chain = .ok (run verifier s₀ calls).utxos := by
  obtain ⟨-, chain, h⟩ : Consistent (run verifier s₀ calls) ∧ _ := run_replays hboot hfree
  have hconfig : (run verifier s₀ calls).config = config := (run_consistent hboot).2
  refine ⟨h.stored.symm, chain, h.length, fun i block hi => ?_, hconfig ▸ h.replayed⟩
  have hmem := List.mem_of_getElem? hi
  exact ⟨h.active i block hi, h.known block hmem, h.bodies block hmem⟩

end

open Sample in
theorem utxos_replay_active_chain_sample : ∃ s₀ chain, Bootstrapped config s₀ ∧
    (run verifier s₀ forkCalls).tip = ⟨rivalSecond.header.blockId, 2, 2⟩ ∧ chain.length = 2 ∧
    replay config.params verifier chain = .ok (run verifier s₀ forkCalls).utxos := by
  have hboot : Bootstrapped config (.initial config) := bootstrapped_initial (by decide +kernel)
  have htip : (run verifier (.initial config) forkCalls).tip = ⟨rivalSecond.header.blockId, 2, 2⟩ := by
    decide +kernel
  obtain ⟨-, chain, hlength, -, hreplay⟩ :=
    utxos_replay_active_chain hboot (show CollisionFree (chainTransactions (deliveredBlocks
      forkCalls)) by decide +kernel)
  exact ⟨_, chain, hboot, htip, by rw [hlength, htip], hreplay⟩

end Oregon
