import Oregon.Sanity.Marks

/-! What pruning leaves. The prune cursor `c` is the height up to which the active chain
may have lost its bodies. As long as no call adopts a tip less than a window above the
cursor, every active block above it has its body and its undo record, and the active
chain up to it does not change any more. -/

namespace Oregon

open Lib

section

variable [Crypto] {verifier : SpendVerifier} {s : ChainState} {c : ℕ}

/-- The bodies and undo records of the active chain above the prune cursor `c` are there,
and the cursor is a window below the tip. -/
structure Retained (s : ChainState) (c : ℕ) : Prop where
  stored : s.db.pruneCursor = some c
  safe : c ≤ s.tip.height - REORG_WINDOW
  body : ∀ height id r, c < height → s.db.activeIdAtHeight height = some id →
    s.db.getIndex id = some r → r.bodyRetained = true
  undo : ∀ height id r, s.db.activeIdAtHeight height = some id → s.db.getIndex id = some r →
    r.bodyRetained = true → ∃ undo, s.db.getUndo id = some undo

/-- A delivered block whose header passes and that is heavier than the tip is a window
above the prune cursor. -/
def KeepsCursor (s : ChainState) (call : Call) : Prop :=
  match call.request with
  | .acceptBlock block => ∀ index c, candidateRecord s block.header call.faults = some index →
      s.tip.cumulativeWork < index.cumulativeWork → s.db.pruneCursor = some c →
      c ≤ index.height - REORG_WINDOW
  | _ => True

omit [Crypto] in
theorem Retained.frame {s' : ChainState} (h : Retained s c)
    (htip : s'.tip = s.tip) (hcursor : s'.db.pruneCursor = s.db.pruneCursor)
    (hactive : s'.db.activeHeight = s.db.activeHeight) (hundo : s'.db.undo = s.db.undo)
    (hrecord : ∀ height id r', s.db.activeIdAtHeight height = some id →
      s'.db.getIndex id = some r' → s.db.getIndex id = some r') : Retained s' c where
  stored := hcursor.trans h.stored
  safe := htip ▸ h.safe
  body height id r hlt hid hr := by
    rw [OregonDb.activeIdAtHeight, hactive] at hid
    exact h.body height id r hlt hid (hrecord height id r hid hr)
  undo height id r hid hr hbody := by
    rw [OregonDb.activeIdAtHeight, hactive] at hid
    rw [OregonDb.getUndo, hundo]
    exact h.undo height id r hid (hrecord height id r hid hr) hbody

variable {block : Block} {index : BlockIndexRecord} {forkHeight : ℕ} {path : List ReorgCandidate}
  {undos : List BlockUndo} {staged : UtxoState} {delta : UtxoDelta}

theorem Retained.adopt (hs : Consistent s) (h : Retained s c)
    (hsafe : c ≤ index.height - REORG_WINDOW)
    (ha : Adopts verifier s block index forkHeight path undos staged delta) :
    Retained (s.reorgTo forkHeight path undos staged delta index.tip) c := by
  obtain ⟨_, _, _, -, -, hconnect⟩ := ha.utxo
  have hlen := connectCandidates_length hconnect
  -- an active block is a node of the path or was active before
  have hcases : ∀ height id r,
      (s.reorgTo forkHeight path undos staged delta index.tip).db.activeIdAtHeight height = some id →
      (s.reorgTo forkHeight path undos staged delta index.tip).db.getIndex id = some r →
      (∃ (j : ℕ) (node : ReorgCandidate), path[j]? = some node ∧ node.id = id ∧
          r = node.index.validated) ∨
        (s.db.activeIdAtHeight height = some id ∧ s.db.getIndex id = some r ∧
          ∀ node ∈ path, node.id ≠ id) := by
    intro height id r hid hr
    rw [reorgTo_activeIdAtHeight] at hid
    rw [reorgTo_getIndex] at hr
    rcases lookup_pathRecords hr with ⟨hnot, hold⟩ | ⟨node, hmem, rfl, rfl⟩
    · have hnot' : ∀ node ∈ path, node.id ≠ id := fun node hmem heq =>
        hnot (List.mem_map.mpr ⟨node, hmem, heq⟩)
      rcases adoptedHeights_cases hs.active ha.pathOk hid with ⟨node, hmem, -, heq⟩ | ⟨-, hactive⟩
      · exact absurd heq (hnot' node hmem)
      · exact Or.inr ⟨hactive, hold, hnot'⟩
    · obtain ⟨j, hj⟩ := List.mem_iff_getElem?.mp hmem
      exact Or.inl ⟨j, node, hj, rfl, rfl⟩
  refine ⟨?_, ?_, fun height id r hlt hid hr => ?_, fun height id r hid hr hbody => ?_⟩
  · rw [ChainState.reorgTo, ChainState.prefer_pruneCursor]
    exact h.stored
  · rw [reorgTo_tip]
    exact hsafe
  · rcases hcases height id r hid hr with ⟨_, node, -, -, rfl⟩ | ⟨hactive, hold, -⟩
    · rfl
    · exact h.body height id r hlt hactive hold
  · rw [OregonDb.getUndo, ChainState.reorgTo, ChainState.prefer_undo]
    rcases hcases height id r hid hr with ⟨j, node, hj, rfl, -⟩ | ⟨hactive, hold, hnot⟩
    · obtain ⟨undo, -, hundo⟩ := lookup_pathUndos ha.candidate ha.pathOk hlen hj
      exact ⟨undo, hundo⟩
    · obtain ⟨undo, hundo⟩ := h.undo height id r hactive hold hbody
      refine ⟨undo, ?_⟩
      rw [lookup_applyChanges_of_notMem]
      · exact hundo
      · rw [List.map_map]
        intro hin
        obtain ⟨p, hmem, heq⟩ := List.mem_map.mp hin
        exact hnot p.1 (List.of_mem_zip hmem).1 heq

theorem Retained.pruned {db' : OregonDb} (hs : Consistent s) (h : Retained s c)
    (hp : Pruned s.db s.tip.height db') :
    Retained { s with db := db' } (pruneCursorForTip s.tip.height) := by
  have hactive : ∀ height, db'.activeIdAtHeight height = s.db.activeIdAtHeight height := fun _ => by
    rw [hp.frame]
    rfl
  have hsafe := h.safe
  refine ⟨by rw [hp.frame], le_rfl, fun height id r' hlt hid hr' => ?_,
    fun height id r' hid hr' hbody => ?_⟩
  · rw [hactive] at hid
    obtain ⟨r, hr, rfl⟩ := hp.getIndex_some hr'
    obtain ⟨r₀, hr₀, rfl, hfull, -⟩ := hs.active.record height id hid
    obtain rfl := Option.some.inj (hr.symm.trans hr₀)
    have hkeep : keepsBody s.db s.tip.height (id, r) = true := by
      refine keepsBody_active hid hfull ?_ (hs.active.height_le hid)
      grind [pruneCursorForTip, retainedActiveFloor]
    rw [hkeep, Bool.and_true]
    exact h.body r.height id r (hsafe.trans_lt hlt) hid hr
  · rw [hactive] at hid
    obtain ⟨r, hr, rfl⟩ := hp.getIndex_some hr'
    rw [Bool.and_eq_true] at hbody
    obtain ⟨undo, hundo⟩ := h.undo height id r hid hr hbody.1
    obtain ⟨r₀, hr₀, rfl, -⟩ := hs.active.record height id hid
    obtain rfl := Option.some.inj (hr.symm.trans hr₀)
    have hkept : keepsUndo s.db s.tip.height (id, r) = true := by
      simp [keepsUndo, shouldRetainUndo, OregonDb.isActive, hid, hs.active.height_le hid,
        floor_le_of_keepsBody hbody.2]
    change s.db.blockIndex[id]? = some r at hr
    change s.db.undo[id]? = some undo at hundo
    rw [OregonDb.getUndo, hp.undo, hr, hundo]
    simp [hkept]

variable (verifier) in
theorem Retained.step {call : Call} (hs : Consistent s) (h : Retained s c)
    (hkeeps : KeepsCursor s call) :
    ∃ c', c ≤ c' ∧ Retained (step verifier s call).1 c' := by
  refine step_rule (Q := fun t => ∃ c', c ≤ c' ∧ Retained t c') hs call
    (fun _ => ⟨c, le_rfl, h.frame rfl rfl rfl rfl fun _ _ _ _ hr => hr⟩) fun s' hopen hc => ?_
  obtain ⟨request, faults⟩ := call
  cases hc with
  | idle => exact ⟨c, le_rfl, h.frame rfl rfl rfl rfl fun _ _ _ _ hr => hr⟩
  | headerStored fresh =>
    refine ⟨c, le_rfl, h.frame (ChainState.prefer_tip _ _) (ChainState.prefer_pruneCursor _ _)
      (ChainState.prefer_activeHeight _ _) (ChainState.prefer_undo _ _) fun height id r hid hr => ?_⟩
    obtain ⟨r₀, hr₀, -⟩ := hs.active.record height id hid
    rwa [storeHeader_getIndex, if_neg (fresh.ne_known hr₀)] at hr
  | sideStored candidate =>
    refine ⟨c, le_rfl, h.frame rfl rfl rfl rfl fun height id r hid hr => ?_⟩
    have hne := fun heq => candidate.not_active hs.active height (hid.trans (congrArg some heq))
    rwa [storeSide_getIndex, if_neg (Ne.symm hne)] at hr
  | marked rejects =>
    refine ⟨c, le_rfl, h.frame rfl rfl rfl rfl fun height id r hid hr => ?_⟩
    rcases lookup_pathRecords hr with ⟨-, hold⟩ | ⟨node, hmem, rfl, -⟩
    · exact hold
    · exact absurd hid (rejects.pathOk.not_active hs.active rejects.candidate node
        (rejects.mem_path node hmem) height)
  | adopted adopts =>
    exact ⟨c, le_rfl, h.adopt hs
      (hkeeps _ c (adopts.candidate.record_eq hopen rfl) adopts.heavy h.stored) adopts⟩
  | pruned pruned => exact ⟨_, h.safe, h.pruned hs pruned⟩

theorem Retained.initial (config : ChainConfig) : Retained (.initial config) 0 := by
  refine ⟨rfl, Nat.zero_le _, fun height id r hlt hid => ?_, fun height id r hid hr hbody => ?_⟩
  · rw [initial_activeIdAtHeight, if_neg (Nat.ne_of_lt hlt)] at hid
    cases hid
  · rw [initial_getIndex] at hr
    split_ifs at hr
    obtain rfl := Option.some.inj hr
    cases hbody

end

end Oregon
