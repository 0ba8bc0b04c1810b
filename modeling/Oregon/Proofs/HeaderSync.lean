import Oregon.Sanity.HeaderSync
import Oregon.Sanity.Sample

/-! Header synchronization over chains that stay as they are: the common height is the true
fork, the targets are the missing bodies above it, and the headers served are the next ones.
The height of the served headers stops at the greatest `u64`, so a preferred tip at that very
height is served again and again until the message is full. -/

namespace Oregon.Sync

open Lib Protocol

section

variable [Crypto]

structure HeaderChain where
  header : ℕ → BlockHeader
  height : ℕ
  inRange : height < 2 ^ 64
  linked : ∀ h < height, (header (h + 1)).previousBlock = (header h).blockId

def HeaderChain.id (chain : HeaderChain) (h : ℕ) : Hash256 := (chain.header h).blockId

/-- An active chain and a preferred chain of headers over the same first block. -/
structure Chains where
  active : HeaderChain
  preferred : HeaderChain
  retained : Hash256 → Bool
  shared : active.id 0 = preferred.id 0

namespace Chains

def view (c : Chains) : ChainSyncView Unit where
  activeTip := check (.ok ⟨c.active.id c.active.height, c.active.height⟩)
  preferredHeaderTip := check (.ok ⟨c.preferred.id c.preferred.height, c.preferred.height⟩)
  activeIdAtHeight h := check (.ok (if h ≤ c.active.height then some (c.active.id h) else none))
  preferredHeaderIdAtHeight h :=
    check (.ok (if h ≤ c.preferred.height then some (c.preferred.id h) else none))
  preferredHeaderAtHeight h :=
    check (.ok (if h ≤ c.preferred.height then some (c.preferred.header h) else none))
  bodyRetained id := check (.ok (c.retained id))

variable (c : Chains)

/-- The heights at which both chains have the same block. -/
def commonHeights : Set ℕ :=
  {h | h ≤ c.active.height ∧ h ≤ c.preferred.height ∧ c.active.id h = c.preferred.id h}

/-- The blocks of the preferred chain above a height whose bodies are not retained. -/
def missingAbove (h : ℕ) : List Hash256 :=
  ((List.range' (h + 1) (c.preferred.height - h)).map c.preferred.id).filter (!c.retained ·)

/-- The preferred headers above a height, as many as there are and fit in a message. -/
def nextHeaders (h : ℕ) : List BlockHeader :=
  (List.range' (h + 1) (min MAX_HEADERS_PER_MESSAGE.toNat (c.preferred.height - h))).map
    c.preferred.header

/-- The tip of the preferred chain can be stepped over; or it is not reached: there is nothing
above the common height, or a message full of headers, or the stop block. -/
def Reaches (commonHeight : ℕ) (stop : Option Hash256) : Prop :=
  c.preferred.height < 2 ^ 64 - 1 ∨ c.preferred.height ≤ commonHeight ∨
    commonHeight + MAX_HEADERS_PER_MESSAGE.toNat ≤ c.preferred.height ∨
    ∃ h, commonHeight < h ∧ h ≤ c.preferred.height ∧ stop = some (c.preferred.id h)

variable {c}

theorem perform_sameAtHeight {h : ℕ} (hactive : h ≤ c.active.height)
    (hpreferred : h ≤ c.preferred.height) (s : Unit) :
    perform (sameAtHeight c.view h) s = (.ok (c.active.id h = c.preferred.id h : Bool), s) := by
  simp only [sameAtHeight, view, if_pos hactive, if_pos hpreferred, perform_check_ok, orElse_some,
    perform_pure]

/-- The search from a height down ends at the first height it meets at which the blocks are
the same, at the latest at zero. -/
theorem perform_commonHeightFrom {h : ℕ} (hactive : h ≤ c.active.height)
    (hpreferred : h ≤ c.preferred.height) (s : Unit) :
    perform (commonHeightFrom c.view h) s =
      (.ok (Nat.findGreatest (fun k => c.active.id k = c.preferred.id k) h), s) := by
  induction h with
  | zero =>
    rw [commonHeightFrom, perform_bind_ok (perform_sameAtHeight hactive hpreferred s)]
    simp [c.shared]
  | succ h ih =>
    rw [commonHeightFrom, perform_bind_ok (perform_sameAtHeight hactive hpreferred s),
      Nat.findGreatest_succ]
    by_cases hsame : c.active.id (h + 1) = c.preferred.id (h + 1)
    · simp [hsame]
    · simpa [hsame] using ih (by omega) (by omega)

theorem exists_common (s : Unit) : ∃ fork, perform (findCommonHeight c.view) s = (.ok fork, s) ∧
    IsGreatest c.commonHeights fork := by
  refine ⟨_, perform_commonHeightFrom (min_le_left ..) (min_le_right ..) s, ⟨?_, ?_, ?_⟩, ?_⟩
  · exact (Nat.findGreatest_le _).trans (min_le_left ..)
  · exact (Nat.findGreatest_le _).trans (min_le_right ..)
  · exact Nat.findGreatest_spec (P := fun k => c.active.id k = c.preferred.id k) (Nat.zero_le _)
      c.shared
  · rintro h ⟨hactive, hpreferred, hsame⟩
    exact Nat.le_findGreatest (le_min hactive hpreferred) hsame

theorem perform_missingAtHeight {h : ℕ} (hh : h ≤ c.preferred.height) (s : Unit) :
    perform (missingAtHeight c.view h) s =
      (.ok ([c.preferred.id h].filter (!c.retained ·)), s) := by
  simp only [missingAtHeight, view, if_pos hh, perform_check_ok, orElse_some, perform_pure,
    List.filter_singleton]
  cases c.retained (c.preferred.id h) with
  | true => rfl
  | false => rfl

theorem perform_missingFrom {left h : ℕ} (hh : h + left ≤ c.preferred.height) (s : Unit) :
    perform (missingFrom c.view left h) s =
      (.ok (((List.range' h (left + 1)).map c.preferred.id).filter (!c.retained ·)), s) := by
  induction left generalizing h with
  | zero => exact perform_missingAtHeight hh s
  | succ left ih =>
    rw [missingFrom, perform_bind_ok (perform_missingAtHeight (by omega) s),
      perform_bind_ok (ih (by omega)), perform_pure, ← List.filter_append, ← List.map_singleton,
      ← List.map_append]
    rfl

theorem perform_missingBodyTargets {fork : ℕ} {s : Unit}
    (h : perform (findCommonHeight c.view) s = (.ok fork, s)) :
    perform (missingBodyTargets c.view) s = (.ok (c.missingAbove fork), s) := by
  rw [missingBodyTargets, perform_bind_ok h]
  change perform (if c.preferred.height ≤ fork then pure [] else
    missingFrom c.view (c.preferred.height - (fork + 1)) (fork + 1)) s = _
  split_ifs with habove
  · rw [missingAbove, Nat.sub_eq_zero_of_le habove]
    rfl
  · rw [perform_missingFrom (by omega), missingAbove]
    congr 5
    omega

theorem perform_headersFrom_succ {tip : SyncTip} {stop : Option Hash256} {room h : ℕ}
    (htip : tip.height = c.preferred.height) (hh : h ≤ c.preferred.height) (s : Unit) :
    perform (headersFrom c.view tip stop (room + 1) h) s =
      if stop = some (c.preferred.id h) then (.ok [c.preferred.header h], s)
      else perform (headersFrom c.view tip stop room (saturate (h + 1)) >>= fun rest =>
        pure (c.preferred.header h :: rest)) s := by
  rw [headersFrom, htip, if_pos hh]
  simp only [view, if_pos hh, perform_check_ok, orElse_some]
  by_cases hstop : stop = some (c.preferred.id h)
  · rw [if_pos hstop, ← HeaderChain.id, if_pos hstop]
    rfl
  · rw [if_neg hstop, ← HeaderChain.id, if_neg hstop]

/-- The loop over the headers, as long as the tip's height can be stepped over or is not
stepped over. -/
theorem perform_headersFrom {tip : SyncTip} {stop : Option Hash256} {room h : ℕ}
    (htip : tip.height = c.preferred.height)
    (hreach : c.preferred.height < 2 ^ 64 - 1 ∨ h + room ≤ c.preferred.height + 1 ∨
      ∃ k, h ≤ k ∧ k ≤ c.preferred.height ∧ stop = some (c.preferred.id k)) (s : Unit) :
    perform (headersFrom c.view tip stop room h) s =
      (.ok (cutAfter stop ((List.range' h (min room (c.preferred.height + 1 - h))).map
        c.preferred.header)), s) := by
  induction room generalizing h with
  | zero => rfl
  | succ room ih =>
    have hrange := c.preferred.inRange
    by_cases hle : h ≤ c.preferred.height
    · have hcount : min (room + 1) (c.preferred.height + 1 - h) =
          min room (c.preferred.height + 1 - (h + 1)) + 1 := by omega
      rw [hcount, List.range'_succ, List.map_cons, cutAfter, ← HeaderChain.id,
        perform_headersFrom_succ htip hle]
      split_ifs with hstop
      · rfl
      · -- the height saturates only at the tip, and there the message is full
        have hlater : c.preferred.height < 2 ^ 64 - 1 ∨ h + 1 + room ≤ c.preferred.height + 1 ∨
            ∃ k, h + 1 ≤ k ∧ k ≤ c.preferred.height ∧ stop = some (c.preferred.id k) := by
          grind
        cases room with
        | zero => rfl
        | succ room =>
          have hnext : saturate (h + 1) = h + 1 := by
            refine min_eq_left ?_
            rcases hlater with hsmall | hfull | ⟨k, hhk, hk, -⟩ <;> omega
          rw [hnext, perform_bind_ok (ih hlater), perform_pure]
    · rw [headersFrom, htip, if_neg hle, Nat.sub_eq_zero_of_le (by omega), Nat.min_zero]
      rfl

theorem length_headersFrom (tip : SyncTip) (stop : Option Hash256) (room : ℕ) {h : ℕ}
    (htip : tip.height = c.preferred.height) (hmax : c.preferred.height = 2 ^ 64 - 1)
    (hh : h ≤ c.preferred.height)
    (hstop : ∀ k, h ≤ k → k ≤ c.preferred.height → stop ≠ some (c.preferred.id k)) (s : Unit) :
    ∃ headers, perform (headersFrom c.view tip stop room h) s = (.ok headers, s) ∧
      headers.length = room := by
  induction room generalizing h with
  | zero => exact ⟨[], rfl, rfl⟩
  | succ room ih =>
    have hnext : saturate (h + 1) ≤ c.preferred.height := by
      rw [saturate]
      omega
    have hlow : h ≤ saturate (h + 1) := by
      rw [saturate]
      omega
    obtain ⟨rest, hrest, hlength⟩ := ih hnext fun k hk => hstop k (hlow.trans hk)
    refine ⟨c.preferred.header h :: rest, ?_, by rw [List.length_cons, hlength]⟩
    rw [perform_headersFrom_succ htip hh, if_neg (hstop h le_rfl hh), perform_bind_ok hrest,
      perform_pure]

theorem perform_headersAfter (commonHeight : ℕ) (stop : Option Hash256) (s : Unit) :
    perform (headersAfterCommonHeight c.view commonHeight stop) s =
      if c.preferred.height ≤ commonHeight then (.ok [], s)
      else perform (headersFrom c.view ⟨c.preferred.id c.preferred.height, c.preferred.height⟩ stop
        MAX_HEADERS_PER_MESSAGE.toNat (commonHeight + 1)) s := by
  have hrange := c.preferred.inRange
  change perform (if c.preferred.height ≤ commonHeight then pure [] else headersFrom c.view _ stop
    MAX_HEADERS_PER_MESSAGE.toNat (saturate (commonHeight + 1))) s = _
  split_ifs with habove
  · rfl
  · rw [saturate, min_eq_left (by omega)]

theorem headersAfter_iff (commonHeight : ℕ) (stop : Option Hash256) (s : Unit) :
    perform (headersAfterCommonHeight c.view commonHeight stop) s =
      (.ok (cutAfter stop (c.nextHeaders commonHeight)), s) ↔ c.Reaches commonHeight stop := by
  rw [perform_headersAfter]
  split_ifs with habove
  · rw [nextHeaders, Nat.sub_eq_zero_of_le habove, Nat.min_zero]
    exact iff_of_true rfl (.inr (.inl habove))
  · constructor
    · intro hresult
      by_contra hnone
      simp only [Reaches, not_or, not_exists, not_and] at hnone
      obtain ⟨hmax, -, hshort, hstop⟩ := hnone
      have hrange := c.preferred.inRange
      obtain ⟨headers, hheaders, hlength⟩ := length_headersFrom
        ⟨c.preferred.id c.preferred.height, c.preferred.height⟩ stop MAX_HEADERS_PER_MESSAGE.toNat
        (h := commonHeight + 1) rfl (by omega) (by omega) (fun k hk => hstop k hk) s
      have hsame := Except.ok.inj (Prod.mk.inj (hheaders.symm.trans hresult)).1
      grind [cutAfter_length_le, nextHeaders]
    · intro hreach
      rw [perform_headersFrom rfl]
      · rw [nextHeaders]
        congr 5
        omega
      · rcases hreach with hsmall | hbelow | hfull | ⟨k, hlow, hk, hid⟩
        · exact .inl hsmall
        · exact absurd hbelow habove
        · exact .inr (.inl (by omega))
        · exact .inr (.inr ⟨k, hlow, hk, hid⟩)

theorem attached_range {h count : ℕ} (hcount : h + count ≤ c.preferred.height) :
    Attached (c.preferred.id h) ((List.range' (h + 1) count).map c.preferred.header) := by
  induction count generalizing h with
  | zero => exact trivial
  | succ count ih => exact ⟨c.preferred.linked h (by omega), ih (by omega)⟩

theorem validate_nextHeaders (commonHeight : ℕ) (stop : Option Hash256) :
    validateHeadersResponse (c.preferred.id commonHeight)
      (cutAfter stop (c.nextHeaders commonHeight)) = .ok () := by
  rw [validateHeadersResponse_ok_iff]
  constructor
  · refine (cutAfter_length_le ..).trans ?_
    rw [nextHeaders, List.length_map, List.length_range']
    exact min_le_left ..
  · refine Attached.cutAfter ?_ stop
    rw [nextHeaders]
    by_cases habove : c.preferred.height ≤ commonHeight
    · rw [Nat.sub_eq_zero_of_le habove, Nat.min_zero]
      exact trivial
    · exact attached_range (by omega)

/-- For chains of any heights over one first block, a common height and a stop hash: the search
finds the fork, the targets are the missing bodies above it and the headers served are the next
ones up to the stop block, which the peer accepts, exactly when the tip of the preferred chain
is below the greatest `u64` or the loop ends before it. -/
theorem header_sync_iff_reaches (c : Chains) (commonHeight : ℕ) (stop : Option Hash256) :
    ((∃ fork, perform (findCommonHeight c.view) () = (.ok fork, ()) ∧
        IsGreatest c.commonHeights fork ∧
        perform (missingBodyTargets c.view) () = (.ok (c.missingAbove fork), ())) ∧
      ∃ headers, perform (headersAfterCommonHeight c.view commonHeight stop) () = (.ok headers, ()) ∧
        headers = cutAfter stop (c.nextHeaders commonHeight) ∧
        validateHeadersResponse (c.preferred.id commonHeight) headers = .ok ()) ↔
      c.Reaches commonHeight stop := by
  obtain ⟨fork, hfork, hgreatest⟩ := exists_common (c := c) ()
  rw [← headersAfter_iff commonHeight stop ()]
  constructor
  · rintro ⟨-, headers, hheaders, rfl, -⟩
    exact hheaders
  · intro hheaders
    exact ⟨⟨fork, hfork, hgreatest, perform_missingBodyTargets hfork⟩, _, hheaders, rfl,
      validate_nextHeaders commonHeight stop⟩

end Chains

end

namespace Sample

open Oregon.Sample

def stacked : ℕ → BlockHeader
  | 0 => config.anchorHeader
  | h + 1 => { config.anchorHeader with previousBlock := (stacked h).blockId }

def stack (height : ℕ) (h : height < 2 ^ 64) : HeaderChain where
  header := stacked
  height
  inRange := h
  linked _ _ := rfl

/-- An active chain of one block under preferred headers up to the greatest height. -/
def tallest : Chains where
  active := stack 0 (by decide)
  preferred := stack (2 ^ 64 - 1) (by decide)
  retained _ := false
  shared := rfl

end Sample

open Oregon.Sample Oregon.Sync.Sample in
/-- One header is left above the common height, and 128 are served. -/
theorem tallest_tip_is_repeated : ∃ headers,
    perform (headersAfterCommonHeight tallest.view (2 ^ 64 - 2) none) () = (.ok headers, ()) ∧
      headers.length = 128 ∧ (cutAfter none (tallest.nextHeaders (2 ^ 64 - 2))).length = 1 := by
  obtain ⟨headers, hheaders, hlength⟩ := Chains.length_headersFrom (c := tallest)
    ⟨tallest.preferred.id tallest.preferred.height, tallest.preferred.height⟩ none 128
    (h := 2 ^ 64 - 2 + 1) rfl rfl (by decide) (by simp) ()
  refine ⟨headers, ?_, hlength, rfl⟩
  rw [Chains.perform_headersAfter, if_neg (by decide)]
  exact hheaders

end Oregon.Sync
