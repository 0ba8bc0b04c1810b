import Oregon.Spec.Requests
import Mathlib.Data.List.Destutter
import Std.Data.ExtTreeSet

/-! The relay of inventory: what each peer is known to have, what was relayed recently, and to
whom an object that was validated is announced. -/

namespace Oregon.Relay

open Protocol Peer Std

def MAX_KNOWN_INVENTORY_PER_PEER : ℕ := 8192
def MAX_RECENT_RELAY_CACHE : ℕ := 65536

/-- The order of the keys under which the items are asked for. -/
instance : Ord InventoryItem := ⟨compareOn fun item => (RequestKey.object item).code⟩

instance : TransOrd InventoryItem :=
  inferInstanceAs (TransCmp (compareOn fun item => (RequestKey.object item).code))

instance : LawfulEqOrd InventoryItem where
  eq_of_compare h :=
    RequestKey.object.inj (RequestKey.code_injective (LawfulEqOrd.eq_of_compare h))

inductive QueueClass where
  | control
  | requiredData
  | gossip
  deriving DecidableEq, Repr

inductive PeerCommand where
  | send (peerId : PeerId) (message : Message) (queueClass : QueueClass)
  | expect (peerId : PeerId) (key : RequestKey)
  deriving DecidableEq, Repr

/-- The permission to relay an item, which only a successful validation gives. -/
structure ValidatedRelay where
  item : InventoryItem
  deriving DecidableEq, Repr

structure BoundedInventory where
  capacity : ℕ
  members : ExtTreeSet InventoryItem
  order : List InventoryItem

namespace BoundedInventory

def new (capacity : ℕ) : BoundedInventory := { capacity, members := ∅, order := [] }

/-- Makes room for one item. There is no result where the source's `expect` panics. -/
def evict (b : BoundedInventory) : Option BoundedInventory :=
  if b.order.length = b.capacity then
    match b.order with
    | [] => none
    | oldest :: rest => some { b with members := b.members.erase oldest, order := rest }
  else some b

def insert (b : BoundedInventory) (item : InventoryItem) : Option (BoundedInventory × Bool) :=
  if item ∈ b.members then some (b, false)
  else do
    let b ← b.evict
    some ({ b with members := b.members.insert item, order := b.order ++ [item] }, true)

def contains (b : BoundedInventory) (item : InventoryItem) : Bool := item ∈ b.members

end BoundedInventory

structure RelayState where
  knownByPeer : ExtTreeMap PeerId BoundedInventory
  recentRelay : BoundedInventory

namespace RelayState

def default : RelayState where
  knownByPeer := ∅
  recentRelay := .new MAX_RECENT_RELAY_CACHE

/-- The inventory of a peer, which is made when it is first needed. -/
def known (s : RelayState) (peerId : PeerId) : BoundedInventory :=
  (s.knownByPeer[peerId]?).getD (.new MAX_KNOWN_INVENTORY_PER_PEER)

def notePeerInventory (s : RelayState) (peerId : PeerId) (item : InventoryItem) :
    Option (RelayState × Bool) := do
  let r ← (s.known peerId).insert item
  some ({ s with knownByPeer := s.knownByPeer.insert peerId r.1 }, r.2)

def peerKnows (s : RelayState) (peerId : PeerId) (item : InventoryItem) : Bool :=
  (s.knownByPeer[peerId]?).any fun known => known.contains item

def noteRecentRelay (s : RelayState) (item : InventoryItem) : Option (RelayState × Bool) := do
  let r ← s.recentRelay.insert item
  some ({ s with recentRelay := r.1 }, r.2)

/-- What is known of the source is noted first. -/
def noteSource (s : RelayState) (sourcePeer : Option PeerId) (item : InventoryItem) :
    Option (RelayState × Bool) :=
  match sourcePeer with
  | some peerId => s.notePeerInventory peerId item
  | none => some (s, false)

/-- The loop over the peers. -/
def announce (sourcePeer : Option PeerId) (item : InventoryItem) :
    List PeerId → RelayState → Option (RelayState × List PeerCommand)
  | [], s => some (s, [])
  | peerId :: rest, s =>
    if some peerId = sourcePeer ∨ s.peerKnows peerId item then announce sourcePeer item rest s
    else do
      let noted ← s.notePeerInventory peerId item
      let r ← announce sourcePeer item rest noted.1
      some (r.1, .send peerId (.inv [item]) .gossip :: r.2)

/-- The peers in order, each once. -/
def distinct (peers : List PeerId) : List PeerId :=
  (peers.insertionSort (· ≤ ·)).destutter (· ≠ ·)

def relayInventory (s : RelayState) (sourcePeer : Option PeerId) (peers : List PeerId)
    (authorization : ValidatedRelay) : Option (RelayState × List PeerCommand) := do
  let item := authorization.item
  let noted ← s.noteSource sourcePeer item
  let recent ← noted.1.noteRecentRelay item
  if recent.2 then announce sourcePeer item (distinct peers) recent.1
  else some (recent.1, [])

end RelayState

end Oregon.Relay
