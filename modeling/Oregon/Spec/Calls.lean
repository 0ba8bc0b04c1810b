import Oregon.Spec.Recovery

/-! The calls a session makes on a chain state, and runs of them. -/

namespace Oregon

open Lib Std

def ChainState.ensureMutationAllowed (s : ChainState) : Result Unit :=
  match s.sessionHealth with
  | .healthy => .ok ()
  | .storageFaulted => .error .storageFaulted
  | .reindexRequired => .error .reindexRequired

/-- A storage error closes the session for further changes. -/
def noteFault {α : Type} (r : ChainState × Result α) : ChainState × Result α :=
  match r.2 with
  | .error (.storage _) => ({ r.1 with sessionHealth := .storageFaulted }, r.2)
  | _ => r

inductive Request where
  | acceptHeader (header : BlockHeader)
  | acceptBlock (block : Block)
  | prune

/-- A request, with what the world does while it is carried out. -/
structure Call where
  request : Request
  faults : Faults

inductive Reply where
  | header (outcome : HeaderImportOutcome)
  | block (outcome : AcceptOutcome)
  | pruned (report : PruneReport)
  deriving DecidableEq, Repr

section

variable [Crypto]

namespace ChainState

def acceptHeader (s : ChainState) (header : BlockHeader) (faults : Faults) :
    ChainState × Result HeaderImportOutcome :=
  match s.ensureMutationAllowed with
  | .error e => (s, .error e)
  | .ok () => noteFault (s.perform faults.write (acceptHeaderHealthy s header faults.engine))

def acceptBlock (s : ChainState) (block : Block) (verifier : SpendVerifier) (faults : Faults) :
    ChainState × Result AcceptOutcome :=
  match s.ensureMutationAllowed with
  | .error e => (s, .error e)
  | .ok () =>
    noteFault (s.perform faults.write (acceptBlockHealthy s block verifier faults.engine))

/-- Pruning does not touch memory, and a failed write does not close the session. -/
def prune (s : ChainState) (faults : Faults) : ChainState × Result PruneReport :=
  match s.ensureMutationAllowed with
  | .error e => (s, .error e)
  | .ok () => s.perform faults.write do
    let (batch, report) ← planPrune s.db s.tip.height
    pure (.commit { batch, next := s, reply := .ok report })

end ChainState

def step (verifier : SpendVerifier) (s : ChainState) (call : Call) : ChainState × Result Reply :=
  match call.request with
  | .acceptHeader header =>
    let r := s.acceptHeader header call.faults
    (r.1, r.2.map .header)
  | .acceptBlock block =>
    let r := s.acceptBlock block verifier call.faults
    (r.1, r.2.map .block)
  | .prune =>
    let r := s.prune call.faults
    (r.1, r.2.map .pruned)

def run (verifier : SpendVerifier) (s : ChainState) (calls : List Call) : ChainState :=
  calls.foldl (fun s call => (step verifier s call).1) s

/-- A state just bootstrapped on an empty database. -/
def Bootstrapped (config : ChainConfig) (s : ChainState) : Prop :=
  ChainState.openDb .empty config none = .ok s

end

end Oregon
