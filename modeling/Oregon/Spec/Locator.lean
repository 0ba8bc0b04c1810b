import Oregon.Lib.Stateful
import Oregon.Spec.Protocol
import Oregon.Spec.Scheduler

/-! Header synchronization: the locator that is sent to a peer and how a peer answers it,
the checks on an answer, and the search for the bodies that are missing. The chain is read
through a view, one read at a time; what a read finds depends on the state `σ` that the
reads and whatever happens between them leave behind. -/

namespace Oregon.Sync

open Lib Protocol

/-- The greatest `u64`, which the saturating operations stop at. -/
def saturate (value : ℕ) : ℕ := min value (2 ^ 64 - 1)

inductive SyncViewError where
  | unavailable
  deriving DecidableEq, Repr

structure SyncTip where
  blockId : Hash256
  height : ℕ
  deriving DecidableEq, Repr

structure ChainSyncView (σ : Type) where
  activeTip : Stateful σ SyncViewError SyncTip
  preferredHeaderTip : Stateful σ SyncViewError SyncTip
  activeIdAtHeight : ℕ → Stateful σ SyncViewError (Option Hash256)
  preferredHeaderIdAtHeight : ℕ → Stateful σ SyncViewError (Option Hash256)
  preferredHeaderAtHeight : ℕ → Stateful σ SyncViewError (Option BlockHeader)
  bodyRetained : Hash256 → Stateful σ SyncViewError Bool

/-- The loop of `locatorHeights` with `slots` places left, which it never leaves at zero. -/
def locatorFrom : ℕ → ℕ → ℕ → List ℕ
  | 0, _, _ => []
  | slots + 1, height, step =>
    if slots = 0 ∧ height ≠ 0 then [0]
    else height ::
      if height = 0 then []
      else
        let step := if 10 ≤ MAX_LOCATOR_HASHES.toNat - slots then saturate (step * 2) else step
        locatorFrom slots (height - step) step

def locatorHeights (tipHeight : ℕ) : List ℕ := locatorFrom MAX_LOCATOR_HASHES.toNat tipHeight 1

/-- One turn of the inner loop: a hit is kept if it is higher than the best so far. -/
def considerHit (locatorId : Hash256) (best : Option (ℕ × Hash256)) (entry : ℕ × Hash256) :
    Option (ℕ × Hash256) :=
  if locatorId = entry.2 ∧ best.all (fun b => b.1 < entry.1) then some entry else best

def highestLocatorHit (locator : List Hash256) (preferredPath : List (ℕ × Hash256)) :
    Option (ℕ × Hash256) :=
  locator.foldl (fun best locatorId => preferredPath.foldl (considerHit locatorId) best) none

section Views

variable {σ : Type} (view : ChainSyncView σ)

/-- Whether the active chain and the preferred headers have the same block at a height. -/
def sameAtHeight (height : ℕ) : Stateful σ SyncViewError Bool := do
  let activeId ← view.activeIdAtHeight height
  let activeId ← check (orElse activeId .unavailable)
  let preferredId ← view.preferredHeaderIdAtHeight height
  let preferredId ← check (orElse preferredId .unavailable)
  pure (activeId = preferredId)

/-- The search for the fork, from a height down. -/
def commonHeightFrom : ℕ → Stateful σ SyncViewError ℕ
  | 0 => do
    let same ← sameAtHeight view 0
    if same then pure 0 else throw .unavailable
  | height + 1 => do
    let same ← sameAtHeight view (height + 1)
    if same then pure (height + 1) else commonHeightFrom height

def findCommonHeight : Stateful σ SyncViewError ℕ := do
  let active ← view.activeTip
  let preferred ← view.preferredHeaderTip
  commonHeightFrom view (min active.height preferred.height)

/-- The preferred block at a height, unless its body is retained. -/
def missingAtHeight (height : ℕ) : Stateful σ SyncViewError (List Hash256) := do
  let blockId ← view.preferredHeaderIdAtHeight height
  let blockId ← check (orElse blockId .unavailable)
  let retained ← view.bodyRetained blockId
  pure (if retained then [] else [blockId])

/-- The targets from `height` on, with `left` heights above it up to the preferred tip. -/
def missingFrom : ℕ → ℕ → Stateful σ SyncViewError (List Hash256)
  | 0, height => missingAtHeight view height
  | left + 1, height => do
    let targets ← missingAtHeight view height
    let rest ← missingFrom left (height + 1)
    pure (targets ++ rest)

def missingBodyTargets : Stateful σ SyncViewError (List Hash256) := do
  let commonHeight ← findCommonHeight view
  let preferred ← view.preferredHeaderTip
  if preferred.height ≤ commonHeight then pure []
  else missingFrom view (preferred.height - (commonHeight + 1)) (commonHeight + 1)

section Headers

variable [Crypto]

def validateHeadersResponse (commonAncestor : Hash256) (headers : List BlockHeader) :
    Except SyncError Unit :=
  if MAX_HEADERS_PER_MESSAGE.toNat < headers.length then .error .tooManyHeaders
  else
    match headers with
    | [] => .ok ()
    | first :: rest =>
      if first.previousBlock ≠ commonAncestor then .error .detachedHeaders
      else if List.IsChain (fun a b : BlockHeader => b.previousBlock = a.blockId) (first :: rest) then
        .ok ()
      else .error .nonContiguousHeaders

/-- The headers from `height` on, with room for `room` more in the message. -/
def headersFrom (tip : SyncTip) (stop : Option Hash256) :
    ℕ → ℕ → Stateful σ SyncViewError (List BlockHeader)
  | 0, _ => pure []
  | room + 1, height =>
    if height ≤ tip.height then do
      let header ← view.preferredHeaderAtHeight height
      let header ← check (orElse header .unavailable)
      if stop = some header.blockId then pure [header]
      else do
        let rest ← headersFrom tip stop room (saturate (height + 1))
        pure (header :: rest)
    else pure []

def headersAfterCommonHeight (commonHeight : ℕ) (stop : Option Hash256) :
    Stateful σ SyncViewError (List BlockHeader) := do
  let tip ← view.preferredHeaderTip
  if tip.height ≤ commonHeight then pure []
  else headersFrom view tip stop MAX_HEADERS_PER_MESSAGE.toNat (saturate (commonHeight + 1))

end Headers

end Views

end Oregon.Sync
