import Oregon.Spec.Calls
import Oregon.Spec.Locator

/-! The node's view of its chain. Every read is a command of its own to the core, which
carries out other commands between two of them. -/

namespace Oregon

open Lib

namespace ChainState

def preferredHeaderIdAtHeight (s : ChainState) (height : ℕ) : Result (Option Hash256) :=
  if s.headerTip.height < height then .ok none
  else ancestorIdAtHeight s.db s.headerTip.blockId height

def preferredHeaderAtHeight (s : ChainState) (height : ℕ) : Result (Option BlockHeader) := do
  match ← s.preferredHeaderIdAtHeight height with
  | none => pure none
  | some blockId => do
    let record ← orElse (s.db.getIndex blockId)
      (.corruptState "preferred header ancestry index disappeared")
    pure (some record.header)

def bodyRetained (s : ChainState) (blockId : Hash256) : Bool :=
  (s.db.getIndex blockId).any (·.bodyRetained)

end ChainState

namespace Sync

/-- How the core treats a read: whether its queue takes it, and the calls that it carries out
after the read and before the next one. -/
structure Turn where
  taken : Bool
  calls : List Call

/-- The core as the reads of one task find it. With no turns left nothing else happens. -/
structure Core where
  chain : ChainState
  turns : List Turn

section

variable [Crypto] (verifier : SpendVerifier)

def Core.taken (core : Core) : Bool := core.turns.head?.all Turn.taken

def Core.advance (core : Core) : Core where
  chain := run verifier core.chain (core.turns.head?.elim [] Turn.calls)
  turns := core.turns.tail

/-- A read through the core's queue; every failure makes the view unavailable. -/
def readCore {α : Type} (f : ChainState → Result α) : Stateful Core SyncViewError α := do
  let core ← get
  modify (Core.advance verifier)
  check (if core.taken then (f core.chain).mapError fun _ => .unavailable else .error .unavailable)

def nodeSyncView : ChainSyncView Core where
  activeTip := readCore verifier fun s => .ok ⟨s.tip.blockId, s.tip.height⟩
  preferredHeaderTip := readCore verifier fun s => .ok ⟨s.headerTip.blockId, s.headerTip.height⟩
  activeIdAtHeight height := readCore verifier fun s => .ok (s.db.activeIdAtHeight height)
  preferredHeaderIdAtHeight height := readCore verifier fun s => s.preferredHeaderIdAtHeight height
  preferredHeaderAtHeight height := readCore verifier fun s => s.preferredHeaderAtHeight height
  bodyRetained blockId := readCore verifier fun s => .ok (s.bodyRetained blockId)

end

end Sync

end Oregon
