import Oregon.Sanity.HeaderBranch
import Oregon.Sanity.HeaderSync
import Oregon.Sanity.Reached
import Oregon.Sanity.Sample

/-! Headers that are served while the core goes on importing. Every read is answered from the
preferred branch of its moment, so the answers of several reads fit together as long as what
is imported between them leaves the blocks already read on the preferred branch. -/

namespace Oregon.Sync

open Lib Protocol

section

variable [Crypto] {verifier : SpendVerifier}

/-- What is imported after the `k`-th of the reads to come keeps the blocks above `low` and
up to height `read k` on the preferred branch. -/
def KeepsRead (verifier : SpendVerifier) (low : ℕ) (read : ℕ → ℕ) : ChainState → List Turn → Prop
  | _, [] => True
  | s, turn :: turns => Meets (KeepsBranch low (read 0)) verifier s turn.calls ∧
      KeepsRead verifier low (fun k => read (k + 1)) (run verifier s turn.calls) turns

theorem KeepsRead.idle {s : ChainState} {low : ℕ} {read : ℕ → ℕ} {taken : Bool} {turns : List Turn}
    (h : KeepsRead verifier low (fun k => read (k + 1)) s turns) :
    KeepsRead verifier low read s (⟨taken, []⟩ :: turns) := ⟨trivial, h⟩

/-- The chain is in order, and the imports to come keep the blocks already read. -/
structure Steady (verifier : SpendVerifier) (low : ℕ) (read : ℕ → ℕ) (core : Core) : Prop where
  consistent : Consistent core.chain
  keeps : KeepsRead verifier low read core.chain core.turns

/-- The blocks above `low` and up to `high` stay on the preferred branch. -/
def Kept (low high : ℕ) (s s' : ChainState) : Prop :=
  ∀ id height, low < height → height ≤ high → OnBranch s id height → OnBranch s' id height

variable {core core' : Core} {low high : ℕ} {read : ℕ → ℕ}

omit [Crypto] in
theorem Kept.trans {s s' s'' : ChainState} (h : Kept low high s s') (h' : Kept low high s' s'') :
    Kept low high s s'' :=
  fun id height hlow hhigh hon => h' id height hlow hhigh (h id height hlow hhigh hon)

omit [Crypto] in
theorem Kept.mono {s s' : ChainState} {lower : ℕ} (h : Kept low high s s') (hle : lower ≤ high) :
    Kept low lower s s' :=
  fun id height hlow hhigh => h id height hlow (hhigh.trans hle)

theorem consistent_advance (h : Consistent core.chain) :
    Consistent (core.advance verifier).chain :=
  run_inv (P := Consistent) h fun _ call _ ht => ht.change (step_change ht call)

theorem Steady.advance (h : Steady verifier low read core) :
    Steady verifier low (fun k => read (k + 1)) (core.advance verifier) ∧
      Kept low (read 0) core.chain (core.advance verifier).chain := by
  obtain ⟨chain, turns⟩ := core
  cases turns with
  | nil => exact ⟨⟨h.consistent, trivial⟩, fun _ _ _ _ hon => hon⟩
  | cons turn turns =>
    refine ⟨⟨consistent_advance h.consistent, h.keeps.2⟩, fun id height hlow hhigh hon => ?_⟩
    exact hon.run h.consistent hlow hhigh h.keeps.1

theorem read_ok {α β : Type} (f : ChainState → Result α) {g : α → Stateful Core SyncViewError β}
    {b : β} (hread : perform (readCore verifier f >>= g) core = (.ok b, core')) :
    ∃ a, f core.chain = .ok a ∧ perform (g a) (core.advance verifier) = (.ok b, core') := by
  obtain ⟨a, next, hanswer, hrest⟩ := perform_bind_eq_ok.mp hread
  rw [readCore, perform_get_bind, perform_bind_ok (perform_modify ..), perform_check,
    Prod.mk.injEq] at hanswer
  obtain ⟨htaken, rfl⟩ := hanswer
  split_ifs at htaken
  exact ⟨a, mapError_eq_ok.mp htaken, hrest⟩

theorem readSome_ok {α β : Type} (f : ChainState → Result (Option α))
    {g : α → Stateful Core SyncViewError β} {b : β}
    (hread : perform (do
      let found ← readCore verifier f
      let a ← check (orElse found .unavailable)
      g a) core = (.ok b, core')) :
    ∃ a, f core.chain = .ok (some a) ∧ perform (g a) (core.advance verifier) = (.ok b, core') := by
  obtain ⟨found, hanswer, hrest⟩ := read_ok f hread
  cases found with
  | none => cases (Prod.mk.inj hrest).1
  | some a => exact ⟨a, hanswer, hrest⟩

/-- The headers of the loop attach to the block that the branch had below the first of them
when it was read. -/
theorem headersFrom_attached {tip : SyncTip} {stop : Option Hash256} {room height : ℕ}
    {headers : List BlockHeader} (htip : tip.height < 2 ^ 64 - 1)
    (hsteady : Steady verifier low read core) (hlow : low ≤ height)
    (hread : ∀ k, height + 1 + k ≤ read k)
    (h : perform (headersFrom (nodeSyncView verifier) tip stop room (height + 1)) core =
      (.ok headers, core')) :
    headers.length ≤ room ∧
      (headers ≠ [] → ∃ parent, OnBranch core.chain parent height ∧ Attached parent headers) := by
  induction room generalizing core height headers read with
  | zero =>
    obtain rfl := Except.ok.inj (Prod.mk.inj h).1
    exact ⟨le_rfl, fun hne => absurd rfl hne⟩
  | succ room ih =>
    rw [headersFrom] at h
    split_ifs at h with hle
    · obtain ⟨header, hanswer, hrest⟩ :=
        readSome_ok (fun s => s.preferredHeaderAtHeight (height + 1)) h
      obtain ⟨hon, hbelow⟩ := preferredHeaderAtHeight_onBranch hsteady.consistent hanswer
      split_ifs at hrest with hstop
      · obtain rfl := Except.ok.inj (Prod.mk.inj hrest).1
        exact ⟨by simp, fun _ => ⟨_, hbelow height rfl, rfl, trivial⟩⟩
      · obtain ⟨rest, last, hloop, hpure⟩ := perform_bind_eq_ok.mp hrest
        obtain rfl := Except.ok.inj (Prod.mk.inj hpure).1
        have hnext : saturate (height + 1 + 1) = height + 1 + 1 := min_eq_left (by omega)
        obtain rfl := (Prod.mk.inj hpure).2
        rw [hnext] at hloop
        obtain ⟨hlater, hkept⟩ := hsteady.advance
        obtain ⟨hlength, hattached⟩ := ih hlater (by omega)
          (fun k => by have := hread (k + 1); omega) hloop
        refine ⟨by simpa using hlength, fun _ => ⟨_, hbelow height rfl, rfl, ?_⟩⟩
        cases rest with
        | nil => trivial
        | cons second rest =>
          -- the header read is still on the branch that the next one is read from
          obtain ⟨parent, hparent, hrest⟩ := hattached (List.cons_ne_nil _ _)
          have hstays := hkept _ _ (by omega) (hread 0) hon
          rwa [hparent.unique hlater.consistent hstays] at hrest
    · obtain rfl := Except.ok.inj (Prod.mk.inj h).1
      exact ⟨by simp, fun hne => absurd rfl hne⟩

theorem headersAfter_attached {commonHeight : ℕ} {stop : Option Hash256}
    {headers : List BlockHeader}
    (hsteady : Steady verifier commonHeight (fun k => commonHeight + k) core)
    (htip : core.chain.headerTip.height < 2 ^ 64 - 1)
    (h : perform (headersAfterCommonHeight (nodeSyncView verifier) commonHeight stop) core =
      (.ok headers, core')) :
    ∃ parent, validateHeadersResponse parent headers = .ok () := by
  obtain ⟨tip, hanswer, hrest⟩ :=
    read_ok (fun s => .ok (SyncTip.mk s.headerTip.blockId s.headerTip.height)) h
  obtain rfl := Except.ok.inj hanswer
  split_ifs at hrest with hnone
  · obtain rfl := Except.ok.inj (Prod.mk.inj hrest).1
    exact ⟨0, rfl⟩
  · have hfirst : saturate (commonHeight + 1) = commonHeight + 1 := min_eq_left (by
      have hbelow : commonHeight < core.chain.headerTip.height := Nat.lt_of_not_le hnone
      omega)
    rw [hfirst] at hrest
    obtain ⟨hlength, hattached⟩ := headersFrom_attached htip hsteady.advance.1 le_rfl
      (fun k => by omega) hrest
    cases headers with
    | nil => exact ⟨0, rfl⟩
    | cons first rest =>
      obtain ⟨parent, -, hall⟩ := hattached (List.cons_ne_nil _ _)
      exact ⟨parent, validateHeadersResponse_ok_iff.mpr ⟨hlength, hall⟩⟩

theorem sameAtHeight_consistent {height : ℕ} {same : Bool} (hs : Consistent core.chain)
    (h : perform (sameAtHeight (nodeSyncView verifier) height) core = (.ok same, core')) :
    Consistent core'.chain := by
  obtain ⟨activeId, -, hrest⟩ := readSome_ok (fun s => .ok (s.db.activeIdAtHeight height)) h
  obtain ⟨preferredId, -, hpure⟩ := readSome_ok (fun s => s.preferredHeaderIdAtHeight height) hrest
  obtain rfl := (Prod.mk.inj hpure).2
  exact consistent_advance (consistent_advance hs)

theorem commonHeightFrom_consistent {height found : ℕ} (hs : Consistent core.chain)
    (h : perform (commonHeightFrom (nodeSyncView verifier) height) core = (.ok found, core')) :
    Consistent core'.chain := by
  induction height generalizing core with
  | zero =>
    obtain ⟨same, next, hsame, hrest⟩ := perform_bind_eq_ok.mp h
    cases same with
    | true =>
      obtain rfl := (Prod.mk.inj hrest).2
      exact sameAtHeight_consistent hs hsame
    | false => cases (Prod.mk.inj hrest).1
  | succ height ih =>
    obtain ⟨same, next, hsame, hrest⟩ := perform_bind_eq_ok.mp h
    have hnext := sameAtHeight_consistent hs hsame
    cases same with
    | true => simp_all
    | false => exact ih hnext hrest

theorem findCommonHeight_consistent {found : ℕ} (hs : Consistent core.chain)
    (h : perform (findCommonHeight (nodeSyncView verifier)) core = (.ok found, core')) :
    Consistent core'.chain := by
  obtain ⟨active, -, hrest⟩ := read_ok (fun s => .ok (SyncTip.mk s.tip.blockId s.tip.height)) h
  obtain ⟨preferred, -, hsearch⟩ := read_ok
    (fun s => .ok (SyncTip.mk s.headerTip.blockId s.headerTip.height)) hrest
  exact commonHeightFrom_consistent (consistent_advance (consistent_advance hs)) hsearch

/-- All these blocks are on the preferred branch, above `low` and up to `high`. -/
def AllOnBranch (low high : ℕ) (s : ChainState) (ids : List Hash256) : Prop :=
  ∀ id ∈ ids, ∃ height, low < height ∧ height ≤ high ∧ OnBranch s id height

omit [Crypto] in
theorem AllOnBranch.kept {s s' : ChainState} {ids : List Hash256} (h : AllOnBranch low high s ids)
    (hkept : Kept low high s s') : AllOnBranch low high s' ids := by
  intro id hid
  obtain ⟨height, hlow, hhigh, hon⟩ := h id hid
  exact ⟨height, hlow, hhigh, hkept id height hlow hhigh hon⟩

theorem missingAtHeight_onBranch {height : ℕ} {targets : List Hash256}
    (hsteady : Steady verifier low read core) (hlow : low < height)
    (hread : ∀ k, height + k / 2 ≤ read k)
    (h : perform (missingAtHeight (nodeSyncView verifier) height) core = (.ok targets, core')) :
    Steady verifier low (fun k => read (k + 2)) core' ∧ Kept low height core.chain core'.chain ∧
      AllOnBranch low height core'.chain targets := by
  obtain ⟨id, hanswer, hrest⟩ := readSome_ok (fun s => s.preferredHeaderIdAtHeight height) h
  obtain ⟨retained, -, hpure⟩ := read_ok (fun s => .ok (s.bodyRetained id)) hrest
  have hon := preferredHeaderIdAtHeight_onBranch hsteady.consistent hanswer
  obtain ⟨hfirst, hkept⟩ := hsteady.advance
  obtain ⟨hsecond, hkept'⟩ := hfirst.advance
  have hall : Kept low height core.chain ((core.advance verifier).advance verifier).chain :=
    (hkept.mono (hread 0)).trans (hkept'.mono (hread 1))
  obtain rfl := (Prod.mk.inj hpure).2
  obtain rfl := Except.ok.inj (Prod.mk.inj hpure).1
  refine ⟨hsecond, hall, ?_⟩
  split_ifs
  · simp [AllOnBranch]
  · intro other hother
    rw [List.mem_singleton.mp hother]
    exact ⟨height, hlow, le_rfl, hall _ _ hlow le_rfl hon⟩

theorem missingFrom_onBranch {left height : ℕ} {targets : List Hash256}
    (hsteady : Steady verifier low read core) (hlow : low < height)
    (hread : ∀ k, height + k / 2 ≤ read k)
    (h : perform (missingFrom (nodeSyncView verifier) left height) core = (.ok targets, core')) :
    Kept low height core.chain core'.chain ∧
      AllOnBranch low (height + left) core'.chain targets := by
  induction left generalizing core height targets read with
  | zero => exact (missingAtHeight_onBranch hsteady hlow hread h).2
  | succ left ih =>
    obtain ⟨first, next, hfirst, hrest⟩ := perform_bind_eq_ok.mp h
    obtain ⟨rest, last, hloop, hpure⟩ := perform_bind_eq_ok.mp hrest
    obtain rfl := (Prod.mk.inj hpure).2
    obtain rfl := Except.ok.inj (Prod.mk.inj hpure).1
    obtain ⟨hlater, hkept, hon⟩ := missingAtHeight_onBranch hsteady hlow hread hfirst
    obtain ⟨hkept', honrest⟩ := ih hlater (by omega) (fun k => by have := hread (k + 2); omega) hloop
    have hstays := hkept'.mono (Nat.le_succ height)
    refine ⟨hkept.trans hstays, fun id hid => ?_⟩
    rcases List.mem_append.mp hid with hid | hid
    · obtain ⟨at', hlow', hhigh, hid⟩ := hon.kept hstays id hid
      exact ⟨at', hlow', by omega, hid⟩
    · obtain ⟨at', hlow', hhigh, hid⟩ := honrest id hid
      exact ⟨at', hlow', by omega, hid⟩

/-- In every reachable state, whatever the core imports between the reads. Served headers form
one chain that a peer accepts from the parent of the first on, as long as the headers already
read stay on the preferred branch, and the preferred tip at the first read is below the
greatest height. Body targets are on one branch, as long as those already read stay on the
preferred branch once the common height is found. -/
theorem served_headers_contiguous {config : ChainConfig} {s : ChainState} {turns : List Turn}
    (hs : Reached config s) :
    (s.headerTip.height < 2 ^ 64 - 1 → ∀ commonHeight stop first rest core,
      KeepsRead verifier commonHeight (fun k => commonHeight + k) s turns →
      perform (headersAfterCommonHeight (nodeSyncView verifier) commonHeight stop) ⟨s, turns⟩ =
        (.ok (first :: rest), core) →
      List.IsChain (fun a b : BlockHeader => b.previousBlock = a.blockId) (first :: rest) ∧
        validateHeadersResponse first.previousBlock (first :: rest) = .ok ()) ∧
    ∀ common found targets core,
      perform (findCommonHeight (nodeSyncView verifier)) ⟨s, turns⟩ = (.ok common, found) →
      KeepsRead verifier common (fun k => common + (k + 1) / 2) found.chain found.turns →
      perform (missingBodyTargets (nodeSyncView verifier)) ⟨s, turns⟩ = (.ok targets, core) →
      ∀ id ∈ targets, Ancestor core.chain.db.blockIndex id core.chain.headerTip.blockId := by
  have hchain : Consistent s := hs.consistent.1
  refine ⟨fun htip commonHeight stop first rest core hkeeps h => ?_,
    fun common found targets core hfound hkeeps h => ?_⟩
  · obtain ⟨parent, hvalid⟩ := headersAfter_attached ⟨hchain, hkeeps⟩ htip h
    obtain ⟨-, hattached⟩ := validateHeadersResponse_ok_iff.mp hvalid
    obtain ⟨hparent, hcontiguous⟩ := attached_cons_iff.mp hattached
    exact ⟨hcontiguous, hparent ▸ hvalid⟩
  · rw [missingBodyTargets, perform_bind_ok hfound] at h
    have hsteady : Steady verifier common (fun k => common + (k + 1) / 2) found :=
      ⟨findCommonHeight_consistent hchain hfound, hkeeps⟩
    obtain ⟨preferred, -, hloop⟩ := read_ok
      (fun s => .ok (SyncTip.mk s.headerTip.blockId s.headerTip.height)) h
    split_ifs at hloop with hnone
    · obtain rfl := Except.ok.inj (Prod.mk.inj hloop).1
      simp
    · intro id hid
      obtain ⟨-, hall⟩ := missingFrom_onBranch hsteady.advance.1 (Nat.lt_succ_self common)
        (fun k => by omega) hloop
      obtain ⟨height, -, -, hon⟩ := hall id hid
      exact hon.1

end

namespace Sample

open Oregon.Sample

theorem eq_of_fst {α β : Type} {p : α × β} {a : α} (h : p.1 = a) : p = (a, p.2) := by
  rw [← h]

def rivalThird : Block := block rivalSecond.header.blockId 1900 13 [coinbase 3 13]

def otherSecond : Block := block first.header.blockId 1700 22 [coinbase 2 22]

def otherThird : Block := block otherSecond.header.blockId 1900 23 [coinbase 3 23]

/-- A state with two headers announced. -/
def announced : ChainState :=
  run verifier (.initial config) [announce first, announce second]

/-- The announcement of a longer branch. -/
def rivals : List Call := [announce rivalFirst, announce rivalSecond, announce rivalThird]

def switched : ChainState := run verifier announced rivals

/-- Turns without imports, and then one in which the longer branch is announced. -/
def switchAfter (turns : ℕ) : List Turn :=
  List.replicate turns ⟨true, []⟩ ++ [⟨true, rivals⟩]

theorem announced_reached : Reached config announced :=
  reached_run (.opened (bootstrapped_initial rfl)) _

theorem switched_reached : Reached config switched := reached_run announced_reached rivals

theorem switched_apart (tip : Hash256) :
    ¬ (Ancestor switched.db.blockIndex first.header.blockId tip ∧
      Ancestor switched.db.blockIndex rivalSecond.header.blockId tip) := by
  have hok := switched_reached.consistent.1.index
  have hfirst : (switched.db.getIndex first.header.blockId).map BlockIndexRecord.height = some 1 := by
    decide +kernel
  have hsecond : (switched.db.getIndex rivalSecond.header.blockId).map
      (fun r => (r.height, r.parent)) = some (2, rivalFirst.header.blockId) := by decide +kernel
  have hbelow : (switched.db.getIndex rivalFirst.header.blockId).map BlockIndexRecord.height =
      some 1 := by decide +kernel
  have hne : first.header.blockId ≠ rivalFirst.header.blockId := by decide +kernel
  obtain ⟨ra, hra, hheight⟩ := Option.map_eq_some_iff.mp hfirst
  obtain ⟨rb, hrb, hpair⟩ := Option.map_eq_some_iff.mp hsecond
  obtain ⟨rc, hrc, hheight'⟩ := Option.map_eq_some_iff.mp hbelow
  grind [Ancestor.apart]

end Sample

open Oregon.Sample Oregon.Sync.Sample in
/-- The preferred branch changes between two reads: the headers served do not attach, and the
targets are not on one branch. -/
theorem switch_between_reads : Reached config announced ∧
    (perform (headersAfterCommonHeight (nodeSyncView verifier) 0 none)
      ⟨announced, switchAfter 1⟩).1 = .ok [first.header, rivalSecond.header] ∧
    rivalSecond.header.previousBlock ≠ first.header.blockId ∧
    (perform (missingBodyTargets (nodeSyncView verifier)) ⟨announced, switchAfter 6⟩).1 =
      .ok [first.header.blockId, rivalSecond.header.blockId] ∧
    ∀ tip, ¬ (Ancestor switched.db.blockIndex first.header.blockId tip ∧
      Ancestor switched.db.blockIndex rivalSecond.header.blockId tip) := by
  refine ⟨announced_reached, ?_, ?_, ?_, switched_apart⟩
  · decide +kernel
  · decide +kernel
  · decide +kernel

open Oregon.Sample Oregon.Sync.Sample in
/-- After the first header is read the preferred tip moves to another branch above it, and the
second header is served from there. -/
theorem served_headers_contiguous_switched : ∃ core,
    perform (headersAfterCommonHeight (nodeSyncView verifier) 0 none)
      ⟨announced, [⟨true, []⟩, ⟨true, [announce otherSecond, announce otherThird]⟩]⟩ =
        (.ok [first.header, otherSecond.header], core) ∧
    core.chain.headerTip.blockId = otherThird.header.blockId ∧
    validateHeadersResponse first.header.previousBlock [first.header, otherSecond.header] =
      .ok () := by
  have hserved : (perform (headersAfterCommonHeight (nodeSyncView verifier) 0 none)
      ⟨announced, [⟨true, []⟩, ⟨true, [announce otherSecond, announce otherThird]⟩]⟩).1 =
      .ok [first.header, otherSecond.header] := by decide +kernel
  have hkeep : ∀ (s : ChainState) (b : Block), Consistent s →
      s.preferredHeaderIdAtHeight 1 = .ok (some first.header.blockId) →
      Ancestor s.db.blockIndex first.header.blockId b.header.previousBlock →
      KeepsBranch 0 1 s (announce b) := by
    intro s b hs hfirst hbuilds header index hheader _ _ id height hlow hhigh hon
    obtain rfl : height = 1 := by omega
    cases hheader
    rwa [hon.unique hs (preferredHeaderIdAtHeight_onBranch hs hfirst)]
  have hsecond : KeepsBranch 0 1 announced (announce otherSecond) := by
    refine hkeep _ _ announced_reached.consistent.1 (by decide +kernel) ?_
    rw [show otherSecond.header.previousBlock = first.header.blockId by decide +kernel]
    exact .self
  have hthird : KeepsBranch 0 1 (run verifier announced [announce otherSecond])
      (announce otherThird) := by
    have hother : ((run verifier announced [announce otherSecond]).db.getIndex
        otherThird.header.previousBlock).map (fun r => (r.height, r.parent)) =
        some (2, first.header.blockId) := by decide +kernel
    obtain ⟨r, hr, hpair⟩ := Option.map_eq_some_iff.mp hother
    obtain ⟨hheight, hparent⟩ := Prod.mk.inj hpair
    refine hkeep _ _ (reached_run announced_reached _).consistent.1 (by decide +kernel)
      (.up hr (by omega) ?_)
    rw [hparent]
    exact .self
  have hone : Meets (KeepsBranch 0 1) verifier announced [announce otherSecond] :=
    ⟨hsecond, trivial⟩
  have hboth : Meets (KeepsBranch 0 1) verifier announced
      [announce otherSecond, announce otherThird] := hone.snoc hthird
  have hkeeps : KeepsRead verifier 0 (fun k => 0 + k) announced
      [⟨true, []⟩, ⟨true, [announce otherSecond, announce otherThird]⟩] :=
    .idle ⟨hboth, trivial⟩
  refine ⟨_, eq_of_fst hserved, by decide +kernel, ?_⟩
  exact ((served_headers_contiguous announced_reached).1 (by decide +kernel) _ _ _ _ _ hkeeps
    (eq_of_fst hserved)).2

end Oregon.Sync
