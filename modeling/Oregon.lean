import Oregon.Lib.Result
import Oregon.Lib.Reader
import Oregon.Lib.Maps
import Oregon.Spec.Calls
import Oregon.Proofs.Canonical
import Oregon.Proofs.Supply
import Oregon.Proofs.Ledger
import Oregon.Proofs.Frame
import Oregon.Proofs.ForkChoice
import Oregon.Proofs.Headers
import Oregon.Proofs.Descent
import Oregon.Proofs.Reopen
import Oregon.Proofs.Bodies
import Oregon.Proofs.Tree
import Oregon.Lib.MerkleTree
import Oregon.Proofs.StateProofs
import Oregon.Proofs.Reserve
import Oregon.Proofs.Escrow
import Oregon.Lib.Nested
import Oregon.Lib.PairTree
import Oregon.Proofs.Journal
import Oregon.Proofs.Publication
import Oregon.Lib.Stateful
import Oregon.Spec.Weight
import Oregon.Spec.Runtime
import Oregon.Spec.EffectStack
import Oregon.Spec.Accounting
import Oregon.Spec.Host
import Oregon.Spec.NestedCalls
import Oregon.Spec.TopLevel
import Oregon.Proofs.Asert
import Oregon.Proofs.TransactionRoot
import Oregon.Proofs.Scheduler
import Oregon.Proofs.Continuation
import Oregon.Proofs.Migration
import Oregon.Proofs.Envelope
import Oregon.Proofs.Protocol
import Oregon.Proofs.Storable
import Oregon.Proofs.HeaderOrder
import Oregon.Proofs.Validated
import Oregon.Proofs.Metering
import Oregon.Proofs.Locator
import Oregon.Proofs.HeaderSync
import Oregon.Proofs.ServedHeaders
import Oregon.Proofs.BaseFee
import Oregon.Proofs.CallDepth
import Oregon.Proofs.PoolInvariant
import Oregon.Proofs.Eviction
import Oregon.Proofs.Requests
import Oregon.Proofs.Handshake
import Oregon.Proofs.PeerRegistry
import Oregon.Lib.Fifo
import Oregon.Lib.LinearExtension
import Oregon.Proofs.Relay
import Oregon.Proofs.TopologicalOrder
import Oregon.Proofs.EffectAccounting
import Oregon.Proofs.Arbitration
import Oregon.Proofs.JournalAccounting
import Oregon.Proofs.RecordCanonical
