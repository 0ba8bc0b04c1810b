import Oregon.Lib.Loop
import Oregon.Lib.Maps
import Mathlib.Data.Set.Card
import Mathlib.Logic.Relation

/-! Graphs whose nodes are the keys of a map and whose values hold the links of their nodes. Two
loops: what can be reached from some nodes by following one kind of link, and an order of
the nodes in which none comes before one of its parents. -/

namespace Lib.Graph

open Std Relation

variable {K V ε : Type} [Ord K] [TransOrd K] [LawfulEqOrd K]

section Sets

variable {c d : ExtTreeSet K}

theorem nodup_toList (c : ExtTreeSet K) : c.toList.Nodup := by
  refine ExtTreeSet.distinct_toList.imp ?_
  simp

theorem size_eq_length {l : List K} (hn : l.Nodup) (h : ∀ k, k ∈ l ↔ k ∈ c) :
    c.size = l.length := by
  rw [← ExtTreeSet.length_toList]
  exact ((List.perm_ext_iff_of_nodup (nodup_toList c) hn).mpr fun k => by
    rw [ExtTreeSet.mem_toList, h]).length_eq

theorem ncard_eq_size {s : Set K} (h : ∀ k, k ∈ c ↔ k ∈ s) : s.ncard = c.size := by
  classical
  have hs : s = ↑c.toList.toFinset := by
    ext k
    simp [← h]
  rw [hs, Set.ncard_coe_finset, List.toFinset_card_of_nodup (nodup_toList c),
    ExtTreeSet.length_toList]

theorem size_le_of_subset {m : ExtTreeMap K V} (h : ∀ k ∈ c, k ∈ m) : c.size ≤ m.size := by
  rw [← ExtTreeSet.length_toList, ← ExtTreeMap.length_keys]
  refine ((nodup_toList c).subperm fun k hk => ?_).length_le
  exact ExtTreeMap.mem_keys.mpr (h k (ExtTreeSet.mem_toList.mp hk))

theorem finite_of_mem_iff {s : Set K} (h : ∀ k, k ∈ s → k ∈ c) : s.Finite := by
  classical
  exact c.toList.toFinset.finite_toSet.subset fun k hk => by simpa using h k hk

end Sets

/-- A node leads to the nodes that its value holds. -/
def Link (nodes : ExtTreeMap K V) (links : V → ExtTreeSet K) (a b : K) : Prop :=
  ∃ v, nodes[a]? = some v ∧ b ∈ links v

/-- All links together. -/
def linkCount (nodes : ExtTreeMap K V) (links : V → ExtTreeSet K) : ℕ :=
  mapSum (fun v => (links v).size) nodes

section Closure

variable (nodes : ExtTreeMap K V) (links : V → ExtTreeSet K) (missing spent : ε)

/-- A pending node is taken into the set, unless it is there, and its links become pending. -/
def closeRound (s : List K × ExtTreeSet K) :
    Except ε ((List K × ExtTreeSet K) ⊕ ExtTreeSet K) :=
  match s.1 with
  | [] => pure (.inr s.2)
  | k :: pending => do
    let v ← orElse nodes[k]? missing
    if k ∈ s.2 then pure (.inl (pending, s.2))
    else pure (.inl ((links v).toList.reverse ++ pending, s.2.insert k))

/-- What can be reached from `start`, which is reached itself. The last node that became
pending is the next to be taken. -/
def close (start : ExtTreeSet K) : Except ε (ExtTreeSet K) :=
  loop (closeRound nodes links missing) spent (start.size + linkCount nodes links + 1)
    (start.toList.reverse, ∅)

/-- The links of nodes outside a set. -/
def linksOutside (c : ExtTreeSet K) : ℕ := linkCount (nodes.filter fun k _ => k ∉ c) links

variable {nodes} in
theorem linksOutside_insert {c : ExtTreeSet K} {k : K} {v : V} (hv : nodes[k]? = some v)
    (hk : k ∉ c) :
    linksOutside nodes links (c.insert k) + (links v).size = linksOutside nodes links c := by
  have hfilter : (nodes.filter fun a _ => a ∉ c.insert k) =
      (nodes.filter fun a _ => a ∉ c).erase k := by
    grind
  rw [linksOutside, hfilter]
  refine mapSum_erase _ ?_
  simp_all

/-- What has been reached and what is pending, at every round. -/
structure Closing (start : ExtTreeSet K) (s : List K × ExtTreeSet K) : Prop where
  pending : ∀ k ∈ s.1, k ∈ nodes
  sound : ∀ k, k ∈ s.1 ∨ k ∈ s.2 → ∃ a ∈ start, ReflTransGen (Link nodes links) a k
  started : ∀ k ∈ start, k ∈ s.1 ∨ k ∈ s.2
  closed : ∀ a ∈ s.2, ∀ b, Link nodes links a b → b ∈ s.1 ∨ b ∈ s.2

variable {nodes links} {start c : ExtTreeSet K}

omit [LawfulEqOrd K] in
theorem Closing.skip {k : K} {pending : List K} (h : Closing nodes links start (k :: pending, c))
    (hk : k ∈ c) : Closing nodes links start (pending, c) where
  pending a ha := h.pending a (List.mem_cons_of_mem _ ha)
  sound a ha := h.sound a (ha.imp_left (List.mem_cons_of_mem _))
  started a ha := by
    rcases h.started a ha with ha | ha
    · grind
    · exact Or.inr ha
  closed a ha b hab := by
    rcases h.closed a ha b hab with hb | hb
    · grind
    · exact Or.inr hb

theorem Closing.take {k : K} {v : V} {pending : List K}
    (h : Closing nodes links start (k :: pending, c)) (hv : nodes[k]? = some v)
    (hclosed : ∀ a b, Link nodes links a b → b ∈ nodes) :
    Closing nodes links start ((links v).toList.reverse ++ pending, c.insert k) := by
  -- a node stays pending or taken
  have hstays : ∀ a, a ∈ k :: pending ∨ a ∈ c →
      a ∈ (links v).toList.reverse ++ pending ∨ a ∈ c.insert k := by
    grind
  have hlink : ∀ b, b ∈ links v → Link nodes links k b := fun b hb => ⟨v, hv, hb⟩
  constructor
  case pending =>
    intro a ha
    rcases List.mem_append.mp ha with ha | ha
    · exact hclosed k a (hlink a (by simpa using ha))
    · exact h.pending a (List.mem_cons_of_mem _ ha)
  case sound =>
    intro a ha
    rw [List.mem_append, ExtTreeSet.mem_insert, LawfulEqOrd.compare_eq_iff_eq] at ha
    rcases ha with (ha | ha) | (rfl | ha)
    · obtain ⟨b, hb, hreach⟩ := h.sound k (Or.inl (List.mem_cons_self ..))
      exact ⟨b, hb, hreach.tail (hlink a (by simpa using ha))⟩
    · exact h.sound a (Or.inl (List.mem_cons_of_mem _ ha))
    · exact h.sound k (Or.inl (List.mem_cons_self ..))
    · exact h.sound a (Or.inr ha)
  case started => exact fun a ha => hstays a (h.started a ha)
  case closed =>
    intro a ha b hab
    rw [ExtTreeSet.mem_insert, LawfulEqOrd.compare_eq_iff_eq] at ha
    rcases ha with rfl | ha
    · obtain ⟨w, hw, hb⟩ := hab
      simp_all
    · exact hstays b (h.closed a ha b hab)

omit [LawfulEqOrd K] in
theorem Closing.done (h : Closing nodes links start ([], c)) (k : K) :
    k ∈ c ↔ ∃ a ∈ start, ReflTransGen (Link nodes links) a k := by
  refine ⟨fun hk => h.sound k (Or.inr hk), ?_⟩
  rintro ⟨a, ha, hreach⟩
  have hmem : ∀ b, b ∈ ([] : List K) ∨ b ∈ c → b ∈ c := by simp
  induction hreach with
  | refl => exact hmem a (h.started a ha)
  | tail _ hlink ih => exact hmem _ (h.closed _ ih _ hlink)

variable {missing spent}

variable (missing spent) in
theorem close_spec (hclosed : ∀ a b, Link nodes links a b → b ∈ nodes)
    (hstart : ∀ k ∈ start, k ∈ nodes) :
    ∃ c, close nodes links missing spent start = .ok c ∧
      ∀ k, k ∈ c ↔ ∃ a ∈ start, ReflTransGen (Link nodes links) a k := by
  refine loop_rule (P := Closing nodes links start)
    (R := fun r => ∃ c, r = .ok c ∧ ∀ k, k ∈ c ↔ ∃ a ∈ start, ReflTransGen (Link nodes links) a k)
    (fun s => s.1.length + linksOutside nodes links s.2) ?_ ?_ ?_
  · rintro ⟨pending, c⟩ h
    cases pending with
    | nil => exact Or.inr (Or.inl ⟨c, rfl, c, rfl, h.done⟩)
    | cons k pending =>
      obtain ⟨v, hv⟩ := (mem_iff_lookup nodes k).mp (h.pending k (List.mem_cons_self ..))
      left
      by_cases hk : k ∈ c
      · refine ⟨(pending, c), ?_, h.skip hk, by simp⟩
        simp [closeRound, hv, hk, pure, Except.pure, bind, Except.bind]
      · refine ⟨((links v).toList.reverse ++ pending, c.insert k), ?_, h.take hv hclosed, ?_⟩
        · simp [closeRound, hv, hk, pure, Except.pure, bind, Except.bind]
        · have := linksOutside_insert links hv hk
          grind
  · constructor
    · exact fun k hk => hstart k (by simpa using hk)
    · rintro k (hk | hk)
      · exact ⟨k, by simpa using hk, .refl⟩
      · exact absurd hk ExtTreeSet.not_mem_empty
    · exact fun k hk => Or.inl (by simpa using hk)
    · exact fun a ha => absurd ha ExtTreeSet.not_mem_empty
  · have hall : (nodes.filter fun k _ => decide (k ∉ (∅ : ExtTreeSet K))) = nodes := by grind
    simp only [List.length_reverse, ExtTreeSet.length_toList, linksOutside, hall]
    omega

end Closure

section Order

variable [DecidableEq K] (nodes : ExtTreeMap K V) (parents children : V → ExtTreeSet K) (broken spent : ε)

/-- One parent less to wait for; a node that waits for none is ready. -/
def release (s : ExtTreeMap K ℕ × ExtTreeSet K) (k : K) :
    Except ε (ExtTreeMap K ℕ × ExtTreeSet K) := do
  let degree ← orElse s.1[k]? broken
  ensure (degree ≠ 0) broken
  pure (s.1.insert k (degree - 1), if degree - 1 = 0 then s.2.insert k else s.2)

/-- The least node that is ready comes next, and its children wait for it no longer. -/
def orderRound (s : ExtTreeMap K ℕ × ExtTreeSet K × List K) :
    Except ε ((ExtTreeMap K ℕ × ExtTreeSet K × List K) ⊕ List K) :=
  match s.2.1.toList.head? with
  | none => pure (.inr s.2.2)
  | some k => do
    let v ← orElse nodes[k]? broken
    let released ← (children v).toList.foldlM (release broken) (s.1, s.2.1.erase k)
    pure (.inl (released.1, released.2, s.2.2 ++ [k]))

/-- The nodes that wait for no other. -/
def initiallyReady (degrees : ExtTreeMap K ℕ) : ExtTreeSet K :=
  .ofList ((degrees.toList.filter fun e => e.2 = 0).map Prod.fst)

/-- An order of the nodes: as many as come to be ready. -/
def order : Except ε (List K) :=
  let degrees := nodes.map fun _ v => (parents v).size
  loop (orderRound nodes children broken) spent (nodes.size + linkCount nodes parents + 1)
    (degrees, initiallyReady degrees, [])

/-- Links to parents and to children are the same, and ranks grow along them. -/
structure Layered (rank : K → ℕ) : Prop where
  symm : ∀ a b, Link nodes parents a b ↔ Link nodes children b a
  rank : ∀ a b, Link nodes parents a b → rank b < rank a

variable {broken}

variable (broken) in
theorem release_all {ks : List K} (d : K → ℕ) (degrees : ExtTreeMap K ℕ) (ready : ExtTreeSet K)
    (hn : ks.Nodup) (hd : ∀ k ∈ ks, degrees[k]? = some (d k) ∧ d k ≠ 0) :
    ∃ degrees' ready', ks.foldlM (release broken) (degrees, ready) = .ok (degrees', ready') ∧
      (∀ k, degrees'[k]? = if k ∈ ks then some (d k - 1) else degrees[k]?) ∧
      ∀ k, k ∈ ready' ↔ k ∈ ready ∨ k ∈ ks ∧ d k = 1 := by
  induction ks generalizing degrees ready with
  | nil => exact ⟨degrees, ready, rfl, by simp, by simp⟩
  | cons a ks ih =>
    obtain ⟨ha, hn⟩ := List.nodup_cons.mp hn
    obtain ⟨hdegree, hne⟩ := hd a (List.mem_cons_self ..)
    have hstep : release broken (degrees, ready) a = .ok (degrees.insert a (d a - 1),
        if d a - 1 = 0 then ready.insert a else ready) := by
      rw [release, hdegree, orElse_some, ok_bind, ensure_ok hne]
      rfl
    obtain ⟨degrees', ready', hfold, hdegrees, hready⟩ := ih (degrees.insert a (d a - 1))
      (if d a - 1 = 0 then ready.insert a else ready) hn fun k hk => by
        grind
    refine ⟨degrees', ready', ?_, ?_, ?_⟩
    · rw [List.foldlM_cons, hstep]
      exact hfold
    · grind
    · intro k
      rw [hready]
      by_cases hone : d a = 1
      · rw [if_pos (by omega), ExtTreeSet.mem_insert, LawfulEqOrd.compare_eq_iff_eq, List.mem_cons]
        constructor
        · rintro ((rfl | h) | ⟨h, hk⟩)
          · exact Or.inr ⟨Or.inl rfl, hone⟩
          · exact Or.inl h
          · exact Or.inr ⟨Or.inr h, hk⟩
        · rintro (h | ⟨rfl | h, hk⟩)
          · exact Or.inl (Or.inr h)
          · exact Or.inl (Or.inl rfl)
          · exact Or.inr ⟨h, hk⟩
      · rw [if_neg (by omega), List.mem_cons]
        constructor
        · rintro (h | ⟨h, hk⟩)
          · exact Or.inl h
          · exact Or.inr ⟨Or.inr h, hk⟩
        · rintro (h | ⟨rfl | h, hk⟩)
          · exact Or.inl h
          · exact absurd hk hone
          · exact Or.inr ⟨h, hk⟩

/-- The parents that are still to come. -/
def waiting (emitted : List K) (v : V) : List K := (parents v).toList.filter fun p => p ∉ emitted

/-- What has come, what is ready and what the others wait for, at every round. -/
structure Emitting (s : ExtTreeMap K ℕ × ExtTreeSet K × List K) : Prop where
  nodup : s.2.2.Nodup
  emitted : ∀ k ∈ s.2.2, k ∈ nodes
  closed : ∀ k ∈ s.2.2, ∀ p, Link nodes parents k p → p ∈ s.2.2
  ordered : s.2.2.Pairwise fun a b => ¬ Link nodes parents a b
  degrees : ∀ (k : K) (v : V), nodes[k]? = some v →
    s.1[k]? = some (waiting parents s.2.2 v).length
  ready : ∀ k, k ∈ s.2.1 ↔
    k ∉ s.2.2 ∧ ∃ v, nodes[k]? = some v ∧ (waiting parents s.2.2 v).length = 0

variable {nodes parents children} {rank : K → ℕ}

theorem waiting_eq_zero {emitted : List K} {v : V} :
    (waiting parents emitted v).length = 0 ↔ ∀ p ∈ parents v, p ∈ emitted := by
  simp [waiting]

theorem waiting_append {emitted : List K} {k : K} {v : V} :
    (waiting parents (emitted ++ [k]) v).length =
      if k ∈ parents v ∧ k ∉ emitted then (waiting parents emitted v).length - 1
      else (waiting parents emitted v).length := by
  have hfilter : waiting parents (emitted ++ [k]) v = (waiting parents emitted v).filter (· != k) := by
    rw [waiting, waiting, List.filter_filter]
    grind
  have hn : (waiting parents emitted v).Nodup := (nodup_toList _).filter _
  rw [hfilter, ← hn.erase_eq_filter]
  by_cases hk : k ∈ waiting parents emitted v
  · rw [List.length_erase_of_mem hk, if_pos]
    simpa [waiting] using hk
  · rw [List.erase_of_not_mem hk, if_neg]
    simpa [waiting] using hk

variable (broken) in
theorem Emitting.round (hsymm : ∀ a b, Link nodes parents a b ↔ Link nodes children b a)
    {degrees : ExtTreeMap K ℕ} {ready : ExtTreeSet K} {emitted : List K}
    (hs : Emitting nodes parents (degrees, ready, emitted)) {k : K}
    (hmin : ready.toList.head? = some k) :
    ∃ degrees' ready', orderRound nodes children broken (degrees, ready, emitted) =
        .ok (.inl (degrees', ready', emitted ++ [k])) ∧
      Emitting nodes parents (degrees', ready', emitted ++ [k]) := by
  obtain ⟨hk, v, hv, hwaits⟩ := (hs.ready k).mp (ExtTreeSet.mem_toList.mp (List.mem_of_head? hmin))
  -- the children of `k` are the nodes that wait for it
  have hchild : ∀ (c : K) (w : V), nodes[c]? = some w → (c ∈ (children v).toList ↔ k ∈ parents w) := by
    intro c w hw
    rw [ExtTreeSet.mem_toList]
    constructor
    · intro hc
      obtain ⟨w', hw', hk'⟩ := (hsymm c k).mpr ⟨v, hv, hc⟩
      exact Option.some.inj (hw.symm.trans hw') ▸ hk'
    · intro hkw
      obtain ⟨v', hv', hc⟩ := (hsymm c k).mp ⟨w, hw, hkw⟩
      exact Option.some.inj (hv.symm.trans hv') ▸ hc
  have hnode : ∀ c ∈ (children v).toList, ∃ w, nodes[c]? = some w ∧ k ∈ parents w := fun c hc =>
    (hsymm c k).mpr ⟨v, hv, ExtTreeSet.mem_toList.mp hc⟩
  have hwaiting : ∀ (c : K) (w : V), nodes[c]? = some w → k ∈ parents w →
      degrees[c]? = some (degrees[c]?.getD 0) ∧ degrees[c]?.getD 0 = (waiting parents emitted w).length ∧
        (waiting parents emitted w).length ≠ 0 := by
    intro c w hw hkw
    have hdegree : degrees[c]? = some (waiting parents emitted w).length := hs.degrees c w hw
    refine ⟨by rw [hdegree]; rfl, by rw [hdegree]; rfl, fun hzero => ?_⟩
    exact hk (waiting_eq_zero.mp hzero k hkw)
  obtain ⟨degrees', ready', hfold, hdegrees', hready'⟩ := release_all broken
    (fun c => degrees[c]?.getD 0) degrees (ready.erase k)
    (nodup_toList (children v)) fun c hc => by
      grind
  refine ⟨degrees', ready', ?_, ?_⟩
  · simp only [orderRound, hmin, hv, orElse_some, ok_bind, hfold]
    rfl
  constructor
  case nodup => exact List.nodup_append.mpr ⟨hs.nodup, List.nodup_singleton k, by
    rintro a ha b hb rfl
    exact hk (List.mem_singleton.mp hb ▸ ha)⟩
  case emitted =>
    intro a ha
    rcases List.mem_append.mp ha with ha | ha
    · exact hs.emitted a ha
    · grind
  case closed =>
    intro a ha p hp
    rcases List.mem_append.mp ha with ha | ha
    · exact List.mem_append_left _ (hs.closed a ha p hp)
    · obtain ⟨w, hw, hpw⟩ := List.mem_singleton.mp ha ▸ hp
      obtain rfl := Option.some.inj (hv.symm.trans hw)
      exact List.mem_append_left _ (waiting_eq_zero.mp hwaits p hpw)
  case ordered =>
    refine List.pairwise_append.mpr ⟨hs.ordered, List.pairwise_singleton _ _, ?_⟩
    intro a ha b hb hlink
    exact hk (hs.closed a ha k (List.mem_singleton.mp hb ▸ hlink))
  case degrees =>
    intro c w hw
    have hdegree : degrees[c]? = some (waiting parents emitted w).length := hs.degrees c w hw
    rw [hdegrees', waiting_append]
    by_cases hkw : k ∈ parents w
    · rw [if_pos ((hchild c w hw).mpr hkw), if_pos ⟨hkw, hk⟩, hdegree]
      rfl
    · rw [if_neg (mt (hchild c w hw).mp hkw), if_neg (fun h => hkw h.1), hdegree]
  case ready =>
    intro c
    rw [hready', ExtTreeSet.mem_erase, ne_eq, LawfulEqOrd.compare_eq_iff_eq, List.mem_append,
      List.mem_singleton, not_or]
    constructor
    · rintro (⟨hne, hc⟩ | ⟨hc, hone⟩)
      · obtain ⟨hout, w, hw, hzero⟩ := (hs.ready c).mp hc
        refine ⟨⟨hout, Ne.symm hne⟩, w, hw, ?_⟩
        rw [waiting_eq_zero] at hzero ⊢
        exact fun p hp => List.mem_append_left _ (hzero p hp)
      · obtain ⟨w, hw, hkw⟩ := hnode c hc
        obtain ⟨-, heq, -⟩ := hwaiting c w hw hkw
        refine ⟨⟨fun hout => hk (hs.closed c hout k ⟨w, hw, hkw⟩), ?_⟩, w, hw, ?_⟩
        · rintro rfl
          obtain rfl := Option.some.inj (hv.symm.trans hw)
          exact hk (waiting_eq_zero.mp hwaits c hkw)
        · rw [waiting_append, if_pos ⟨hkw, hk⟩, ← heq, hone]
    · rintro ⟨⟨hout, hne⟩, w, hw, hzero⟩
      rw [waiting_append] at hzero
      by_cases hkw : k ∈ parents w
      · obtain ⟨-, heq, hpos⟩ := hwaiting c w hw hkw
        rw [if_pos ⟨hkw, hk⟩] at hzero
        exact Or.inr ⟨(hchild c w hw).mpr hkw, by omega⟩
      · rw [if_neg fun h => hkw h.1] at hzero
        exact Or.inl ⟨Ne.symm hne, (hs.ready c).mpr ⟨hout, w, hw, hzero⟩⟩

theorem initiallyReady_iff {degrees : ExtTreeMap K ℕ} {k : K} :
    k ∈ initiallyReady degrees ↔ degrees[k]? = some 0 := by
  rw [initiallyReady, ExtTreeSet.mem_ofList, List.contains_iff_mem, List.mem_map]
  simp

/-- A node that can come next: it has not come, and its parents have. -/
def Ready (nodes : ExtTreeMap K V) (parents : V → ExtTreeSet K) (done : List K) (k : K) : Prop :=
  k ∈ nodes ∧ k ∉ done ∧ ∀ p, Link nodes parents k p → p ∈ done

/-- Each comes when it is ready, and is the least that is. -/
def Greedy (nodes : ExtTreeMap K V) (parents : V → ExtTreeSet K) (l : List K) : Prop :=
  ∀ pre k post, l = pre ++ k :: post →
    Ready nodes parents pre k ∧ ∀ c, Ready nodes parents pre c → compare k c ≠ .gt

omit [DecidableEq K] [LawfulEqOrd K] in
theorem greedy_nil : Greedy nodes parents [] := by
  intro pre k post h
  simp at h

omit [DecidableEq K] [LawfulEqOrd K] in
theorem Greedy.append {l : List K} {k : K} (h : Greedy nodes parents l)
    (hready : Ready nodes parents l k)
    (hleast : ∀ c, Ready nodes parents l c → compare k c ≠ .gt) :
    Greedy nodes parents (l ++ [k]) := by
  intro pre a post heq
  rcases List.eq_nil_or_concat post with rfl | ⟨post, b, rfl⟩
  · simp_all
  · rw [List.concat_eq_append, ← List.cons_append, ← List.append_assoc] at heq
    exact h pre a post (List.append_inj' heq rfl).1

omit [DecidableEq K] in
theorem head_least {c : ExtTreeSet K} {k a : K} (hmin : c.toList.head? = some k) (ha : a ∈ c) :
    compare k a ≠ .gt := by
  obtain ⟨rest, hlist⟩ : ∃ rest, c.toList = k :: rest := List.head?_eq_some_iff.mp hmin
  have hordered : (k :: rest).Pairwise fun a b => compare a b = .lt :=
    hlist ▸ ExtTreeSet.ordered_toList
  rcases List.mem_cons.mp (hlist ▸ ExtTreeSet.mem_toList.mpr ha) with rfl | hrest
  · rw [ReflOrd.compare_self]
    decide
  · simp_all

theorem Emitting.ready_iff {s : ExtTreeMap K ℕ × ExtTreeSet K × List K}
    (hs : Emitting nodes parents s) (k : K) : k ∈ s.2.1 ↔ Ready nodes parents s.2.2 k := by
  rw [hs.ready, Ready, mem_iff_lookup]
  constructor
  · rintro ⟨hout, v, hv, hzero⟩
    refine ⟨⟨v, hv⟩, hout, ?_⟩
    rintro p ⟨w, hw, hp⟩
    obtain rfl := Option.some.inj (hv.symm.trans hw)
    exact waiting_eq_zero.mp hzero p hp
  · rintro ⟨⟨v, hv⟩, hout, hparents⟩
    exact ⟨hout, v, hv, waiting_eq_zero.mpr fun p hp => hparents p ⟨v, hv, hp⟩⟩

/-- What the loop ends with. -/
structure Emitted (nodes : ExtTreeMap K V) (parents : V → ExtTreeSet K) (l : List K) : Prop where
  nodup : l.Nodup
  mem : ∀ k ∈ l, k ∈ nodes
  ordered : l.Pairwise fun a b => ¬ Link nodes parents a b
  greedy : Greedy nodes parents l
  done : ∀ k, ¬ Ready nodes parents l k

variable {spent}

variable (broken spent) in
theorem order_emits (hsymm : ∀ a b, Link nodes parents a b ↔ Link nodes children b a) :
    ∃ l, order nodes parents children broken spent = .ok l ∧ Emitted nodes parents l := by
  refine loop_rule (P := fun s => Emitting nodes parents s ∧ Greedy nodes parents s.2.2)
    (R := fun r => ∃ l : List K, r = .ok l ∧ Emitted nodes parents l)
    (fun s => nodes.size - s.2.2.length) ?_ ⟨?_, greedy_nil⟩ ?_
  · rintro ⟨degrees, ready, emitted⟩ ⟨hs, hgreedy⟩
    cases hmin : ready.toList.head? with
    | none =>
      obtain rfl := ExtTreeSet.toList_eq_nil_iff.mp (List.head?_eq_none_iff.mp hmin)
      refine Or.inr (Or.inl ⟨emitted, by simp only [orderRound, hmin]; rfl, emitted, rfl, ?_⟩)
      exact ⟨hs.nodup, hs.emitted, hs.ordered, hgreedy,
        fun k hk => ExtTreeSet.not_mem_empty ((hs.ready_iff k).mpr hk)⟩
    | some k =>
      obtain ⟨degrees', ready', hround, hs'⟩ := hs.round broken hsymm hmin
      have hk : k ∈ ready := ExtTreeSet.mem_toList.mp (List.mem_of_head? hmin)
      have hgreedy' : Greedy nodes parents (emitted ++ [k]) :=
        hgreedy.append ((hs.ready_iff k).mp hk) fun c hc =>
          head_least hmin ((hs.ready_iff c).mpr hc)
      refine Or.inl ⟨_, hround, ⟨hs', hgreedy'⟩, ?_⟩
      have hle : (emitted ++ [k]).length ≤ nodes.keys.length :=
        (hs'.nodup.subperm fun a ha => ExtTreeMap.mem_keys.mpr (hs'.emitted a ha)).length_le
      grind
  · constructor
    · exact List.nodup_nil
    · simp
    · simp
    · exact List.Pairwise.nil
    · intro k v hv
      rw [ExtTreeMap.getElem?_map, hv]
      simp [waiting]
    · simp [initiallyReady_iff, waiting]
  · dsimp only
    omega

omit [DecidableEq K] [LawfulEqOrd K] in
theorem Layered.all_emitted (h : Layered nodes parents children rank) {l : List K}
    (hdone : ∀ k, ¬ Ready nodes parents l k) (k : K) (hk : k ∈ nodes) : k ∈ l := by
  induction hrank : rank k using Nat.strong_induction_on generalizing k with
  | h n ih =>
    by_contra hout
    refine hdone k ⟨hk, hout, fun p hlink => ?_⟩
    obtain ⟨w, hw, -⟩ := (h.symm k p).mp hlink
    exact ih (rank p) (hrank ▸ h.rank k p hlink) p ((mem_iff_lookup nodes p).mpr ⟨w, hw⟩) rfl

variable (broken spent) in
theorem order_spec (h : Layered nodes parents children rank) :
    ∃ l, order nodes parents children broken spent = .ok l ∧ l.Nodup ∧ (∀ k, k ∈ l ↔ k ∈ nodes) ∧
      l.Pairwise fun a b => ¬ Link nodes parents a b := by
  obtain ⟨l, hok, hl⟩ := order_emits broken spent h.symm
  exact ⟨l, hok, hl.nodup, fun k => ⟨hl.mem k, h.all_emitted hl.done k⟩, hl.ordered⟩

end Order

end Lib.Graph
