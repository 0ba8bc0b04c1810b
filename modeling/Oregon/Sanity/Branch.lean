import Oregon.Sanity.Utxo
import Oregon.Spec.Calls

/-! The block index as a tree. `IndexOk` says that every record hangs off the anchor
by links of consecutive heights and added work; `Branch` is a path of such links that
leaves the active chain, which is what the search for a fork finds. -/

namespace Oregon

open Lib

/-- `r` is one higher than `p` and has its work and its own. -/
structure ChildOf (params : ConsensusParams) (p r : BlockIndexRecord) : Prop where
  height : r.height = p.height + 1
  range : r.height < 2 ^ 64
  work : ∃ t, Target.fromLeBytes r.header.difficultyCommitment = .ok t ∧
    t.toNat ≤ params.powLimit.toNat ∧ r.cumulativeWork = p.cumulativeWork + blockWork t

theorem blockWork_pos (t : Target) : 0 < blockWork t := by
  have hlt : t.toNat < 2 ^ 256 := t.value.isLt
  exact Nat.div_pos (by omega) (Nat.succ_pos _)

theorem ChildOf.work_lt {params : ConsensusParams} {p r : BlockIndexRecord}
    (h : ChildOf params p r) : p.cumulativeWork < r.cumulativeWork := by
  obtain ⟨t, -, -, hwork⟩ := h.work
  have := blockWork_pos t
  omega

/-- The part of a record that never changes once it is written. -/
def SameShape (r r' : BlockIndexRecord) : Prop :=
  r'.header = r.header ∧ r'.parent = r.parent ∧ r'.height = r.height ∧
    r'.cumulativeWork = r.cumulativeWork

theorem SameShape.refl (r : BlockIndexRecord) : SameShape r r := ⟨rfl, rfl, rfl, rfl⟩

theorem SameShape.trans {a b c : BlockIndexRecord} (h : SameShape a b) (h' : SameShape b c) :
    SameShape a c :=
  ⟨h'.1.trans h.1, h'.2.1.trans h.2.1, h'.2.2.1.trans h.2.2.1, h'.2.2.2.trans h.2.2.2⟩

theorem ChildOf.shape {params : ConsensusParams} {p p' r r' : BlockIndexRecord}
    (h : ChildOf params p r) (hp : SameShape p p') (hr : SameShape r r') : ChildOf params p' r' := by
  obtain ⟨t, ht, hle, hwork⟩ := h.work
  refine ⟨?_, ?_, t, ?_, hle, ?_⟩
  · rw [hr.2.2.1, hp.2.2.1, h.height]
  · rw [hr.2.2.1]; exact h.range
  · rw [hr.1]; exact ht
  · rw [hr.2.2.2, hp.2.2.2, hwork]

/-- `a` is `id` or an ancestor of it; the walk ends at height zero. -/
inductive Ancestor (index : Std.ExtTreeMap Hash256 BlockIndexRecord) (a : Hash256) :
    Hash256 → Prop where
  | self : Ancestor index a a
  | up {id : Hash256} {r : BlockIndexRecord} (found : index[id]? = some r) (high : r.height ≠ 0)
      (parent : Ancestor index a r.parent) : Ancestor index a id

theorem Ancestor.trans {index : Std.ExtTreeMap Hash256 BlockIndexRecord} {a b c : Hash256}
    (h : Ancestor index a b) (h' : Ancestor index b c) : Ancestor index a c := by
  induction h' with
  | self => exact h
  | up found high _ ih => exact .up found high ih

theorem Ancestor.eq_or_parent {index : Std.ExtTreeMap Hash256 BlockIndexRecord} {a id : Hash256}
    {r : BlockIndexRecord} (h : Ancestor index a id) (hr : index[id]? = some r) :
    a = id ∨ Ancestor index a r.parent := by
  cases h with
  | self => exact Or.inl rfl
  | up found _ parent => simp_all

def anchorRecord (config : ChainConfig) : BlockIndexRecord where
  header := config.anchorHeader
  parent := config.anchorHeader.previousBlock
  height := 0
  cumulativeWork := 0
  validation := .fullyValidated
  bodyRetained := false

section

variable [Crypto]

/-- Every record is filed under its id and linked to an indexed parent, down to the
anchor, which is as it was written first. -/
structure IndexOk (config : ChainConfig) (index : Std.ExtTreeMap Hash256 BlockIndexRecord) :
    Prop where
  ident : ∀ (id : Hash256) (r : BlockIndexRecord), index[id]? = some r →
    r.header.blockId = id ∧ r.parent = r.header.previousBlock
  anchor : index[config.anchorHeader.blockId]? = some (anchorRecord config)
  linked : ∀ (id : Hash256) (r : BlockIndexRecord), index[id]? = some r →
    id = config.anchorHeader.blockId ∨
    ∃ p, index[r.parent]? = some p ∧ ChildOf config.params p r

/-- A parent and a child that the search for a fork has compared. -/
structure Link (parentId : Hash256) (parent : BlockIndexRecord) (childId : Hash256)
    (child : BlockIndexRecord) : Prop where
  parentIdent : parent.header.blockId = parentId ∧ parent.parent = parent.header.previousBlock
  childIdent : child.header.blockId = childId ∧ child.parent = child.header.previousBlock
  parentValid : parent.validation ≠ .invalid
  parent_eq : child.parent = parentId
  height : child.height = parent.height + 1
  range : child.height < 2 ^ 64
  work : ∃ t, Target.fromLeBytes child.header.difficultyCommitment = .ok t ∧
    child.cumulativeWork = parent.cumulativeWork + blockWork t

theorem validateParentChild_ok {parentId childId : Hash256} {parent child : BlockIndexRecord} :
    validateParentChild parentId parent childId child = .ok () ↔
      Link parentId parent childId child := by
  simp only [validateParentChild, validateIndexIdentity, bind_eq_ok, ensure_eq_ok,
    exists_and_left, exists_const, orElse_eq_ok, mapError_eq_ok]
  constructor
  · rintro ⟨hp, hc, hvalid, hparent, h, hadd, hheight, t, ht, hwork⟩
    obtain ⟨rfl, hlt⟩ := checkedAdd_eq_some.mp hadd
    exact ⟨hp, hc, hvalid, hparent, hheight, hheight ▸ hlt, t, ht, hwork⟩
  · rintro ⟨hp, hc, hvalid, hparent, hheight, hlt, t, ht, hwork⟩
    exact ⟨hp, hc, hvalid, hparent, child.height,
      checkedAdd_eq_some.mpr ⟨hheight.symm, hlt⟩, rfl, t, ht, hwork⟩

theorem Link.work_lt {parentId childId : Hash256} {parent child : BlockIndexRecord}
    (h : Link parentId parent childId child) : parent.cumulativeWork < child.cumulativeWork := by
  obtain ⟨t, -, hwork⟩ := h.work
  have := blockWork_pos t
  omega

/-- Nodes above `id`, lowest first, each linked to the one below it; none of them is
active or marked invalid. -/
inductive Branch (db : OregonDb) : Hash256 → BlockIndexRecord → List CandidateNode → Prop where
  | nil (id : Hash256) (r : BlockIndexRecord) : Branch db id r []
  | cons {id : Hash256} {r : BlockIndexRecord} {node : CandidateNode} {rest : List CandidateNode}
      (link : Link id r node.id node.index)
      (side : db.activeIdAtHeight node.index.height ≠ some node.id)
      (valid : node.index.validation ≠ .invalid) (tail : Branch db node.id node.index rest) :
      Branch db id r (node :: rest)

/-- The search from `current` down: what it returns is a branch that leaves the active
chain at the fork and goes through the stored records up to `current`. -/
theorem discoverForkFrom_ok {db : OregonDb} {steps : ℕ} {id : Hash256}
    {current : BlockIndexRecord} {above : List CandidateNode} {d : ForkDiscovery}
    (h : discoverForkFrom db steps id current above = .ok d) (hb : Branch db id current above) :
    (d.candidate = above ∧ d.forkHeight = current.height ∧
      db.activeIdAtHeight current.height = some id) ∨
    ∃ below forkId forkRecord, d.candidate = below ++ ⟨id, current⟩ :: above ∧
      Branch db forkId forkRecord d.candidate ∧ db.getIndex forkId = some forkRecord ∧
      forkRecord.height = d.forkHeight ∧ db.activeIdAtHeight d.forkHeight = some forkId ∧
      ∀ node ∈ below, db.getIndex node.id = some node.index := by
  induction steps generalizing id current above with
  | zero =>
    rw [discoverForkFrom] at h
    split_ifs at h with hactive
    · simp only [pure_eq_ok] at h
      grind
    · cases h
    · cases h
  | succ steps ih =>
    rw [discoverForkFrom] at h
    split_ifs at h with hactive hinvalid hzero
    · simp only [pure_eq_ok] at h
      grind
    · cases h
    · cases h
    · simp only [bind_eq_ok, orElse_eq_ok, exists_unit, validateParentChild_ok] at h
      obtain ⟨parent, hparent, hlink, h⟩ := h
      have hbranch : Branch db current.parent parent (⟨id, current⟩ :: above) :=
        .cons hlink hactive hinvalid hb
      refine Or.inr ?_
      rcases ih h hbranch with ⟨hcand, hfork, hact⟩ | ⟨below, forkId, forkRecord, hcand, hbr, hrec,
        hheight, hact, hall⟩
      · simp_all
      · refine ⟨below ++ [⟨current.parent, parent⟩], forkId, forkRecord, by simpa using hcand, hbr,
          hrec, hheight, hact, ?_⟩
        intro node hnode
        grind

theorem Branch.height_lt {db : OregonDb} {id : Hash256} {r : BlockIndexRecord}
    {nodes : List CandidateNode} (h : Branch db id r nodes) :
    ∀ node ∈ nodes, r.height < node.index.height := by
  induction h with
  | nil => simp
  | cons link _ _ _ ih =>
    have hheight := link.height
    grind

theorem Branch.pairwise_height {db : OregonDb} {id : Hash256} {r : BlockIndexRecord}
    {nodes : List CandidateNode} (h : Branch db id r nodes) :
    nodes.Pairwise fun a b => a.index.height < b.index.height := by
  induction h with
  | nil => exact List.Pairwise.nil
  | cons _ _ _ tail ih => exact List.Pairwise.cons tail.height_lt ih

/-- A node's parent is the fork or the node below it. -/
theorem Branch.parent_cases {db : OregonDb} {id : Hash256} {r : BlockIndexRecord}
    {nodes : List CandidateNode} (h : Branch db id r nodes) :
    ∀ node ∈ nodes, (node.index.parent = id ∧ node.index.height = r.height + 1) ∨
      ∃ prev ∈ nodes, node.index.parent = prev.id ∧ node.index.height = prev.index.height + 1 := by
  induction h with
  | nil => simp
  | @cons id r first rest link _ _ _ ih =>
    intro node hnode
    rcases List.mem_cons.mp hnode with rfl | hnode
    · exact Or.inl ⟨link.parent_eq, link.height⟩
    · simp_all

theorem Branch.side_valid {db : OregonDb} {id : Hash256} {r : BlockIndexRecord}
    {nodes : List CandidateNode} (h : Branch db id r nodes) :
    ∀ node ∈ nodes, db.activeIdAtHeight node.index.height ≠ some node.id ∧
      node.index.validation ≠ .invalid := by
  induction h with
  | nil => simp
  | cons _ side valid _ ih => exact List.forall_mem_cons.mpr ⟨⟨side, valid⟩, ih⟩

theorem Branch.height_get {db : OregonDb} {id : Hash256} {r : BlockIndexRecord}
    {nodes : List CandidateNode} (h : Branch db id r nodes) {i : ℕ} {node : CandidateNode}
    (hi : nodes[i]? = some node) : node.index.height = r.height + 1 + i := by
  induction h generalizing i with
  | nil => simp at hi
  | cons link _ _ _ ih =>
    cases i with
    | zero =>
      obtain rfl := Option.some.inj hi
      exact link.height
    | succ i =>
      have hheight := link.height
      have := ih hi
      omega

theorem IndexOk.height_range {config : ChainConfig}
    {index : Std.ExtTreeMap Hash256 BlockIndexRecord} (h : IndexOk config index) {id : Hash256}
    {r : BlockIndexRecord} (hr : index[id]? = some r) : r.height < 2 ^ 64 := by
  rcases h.linked id r hr with rfl | ⟨_, -, hchild⟩
  · rw [h.anchor] at hr
    obtain rfl := Option.some.inj hr
    exact Nat.two_pow_pos 64
  · exact hchild.range

/-- The fork and the stored nodes of a branch are ancestors of the block on top. -/
theorem Branch.ancestor {db : OregonDb} {below : List CandidateNode} {last : CandidateNode} :
    ∀ {id : Hash256} {r : BlockIndexRecord}, Branch db id r (below ++ [last]) →
      (∀ node ∈ below, db.getIndex node.id = some node.index) →
      Ancestor db.blockIndex id last.index.parent ∧
        ∀ node ∈ below, Ancestor db.blockIndex node.id last.index.parent := by
  induction below with
  | nil =>
    intro id r h _
    cases h with
    | cons link _ _ _ => exact ⟨link.parent_eq ▸ .self, by simp⟩
  | cons node below ih =>
    intro id r h hknown
    cases h with
    | cons link _ _ tail =>
      obtain ⟨hnode, hbelow⟩ := ih tail fun n hn => hknown n (List.mem_cons_of_mem _ hn)
      have hheight := link.height
      have hup : Ancestor db.blockIndex id node.id :=
        .up (hknown node (List.mem_cons_self ..)) (by omega) (link.parent_eq ▸ .self)
      exact ⟨hup.trans hnode, List.forall_mem_cons.mpr ⟨hnode, hbelow⟩⟩

theorem Branch.pairwise_work {db : OregonDb} {id : Hash256} {r : BlockIndexRecord}
    {nodes : List CandidateNode} (h : Branch db id r nodes) :
    (∀ node ∈ nodes, r.cumulativeWork < node.index.cumulativeWork) ∧
      nodes.Pairwise fun a b => a.index.cumulativeWork < b.index.cumulativeWork := by
  induction h with
  | nil => simp
  | cons link _ _ _ ih =>
    refine ⟨List.forall_mem_cons.mpr ⟨link.work_lt, fun n hn => link.work_lt.trans (ih.1 n hn)⟩, ?_⟩
    exact List.Pairwise.cons ih.1 ih.2

end

end Oregon
