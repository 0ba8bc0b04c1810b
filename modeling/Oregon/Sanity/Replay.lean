import Oregon.Sanity.Utxo

/-! The UTXO set of a chain of blocks: connecting them one after the other from
the empty set. This is what the incremental updates of a node are compared with. -/

namespace Oregon

open Lib

variable [Crypto] (params : ConsensusParams) (verifier : SpendVerifier)

/-- Blocks connected at consecutive heights from `height` on. -/
def connectAll : ℕ → List Block → UtxoState → Except UtxoError UtxoState
  | _, [], s => pure s
  | height, block :: blocks, s => do
    let r ← s.connectBlock block height params verifier
    connectAll (height + 1) blocks r.1

def replay (chain : List Block) : Except UtxoError UtxoState :=
  connectAll params verifier 1 chain .new

variable {params verifier}

theorem connectAll_append {height : ℕ} {blocks blocks' : List Block} {s s' : UtxoState} :
    connectAll params verifier height (blocks ++ blocks') s = .ok s' ↔
      ∃ mid, connectAll params verifier height blocks s = .ok mid ∧
        connectAll params verifier (height + blocks.length) blocks' mid = .ok s' := by
  induction blocks generalizing height s with
  | nil => simp [connectAll, pure_eq_ok]
  | cons b blocks ih =>
    simp only [List.cons_append, connectAll, bind_eq_ok, ih, List.length_cons,
      show height + 1 + blocks.length = height + (blocks.length + 1) by omega]
    grind

theorem replay_append {chain blocks : List Block} {s' : UtxoState} :
    replay params verifier (chain ++ blocks) = .ok s' ↔
      ∃ s, replay params verifier chain = .ok s ∧
        connectAll params verifier (chain.length + 1) blocks s = .ok s' := by
  rw [replay, connectAll_append, Nat.add_comm]
  rfl

theorem replay_snoc {chain : List Block} {block : Block} {s' : UtxoState} :
    replay params verifier (chain ++ [block]) = .ok s' ↔
      ∃ s undo, replay params verifier chain = .ok s ∧
        s.connectBlock block (chain.length + 1) params verifier = .ok (s', undo) := by
  rw [replay_append]
  simp only [connectAll, bind_eq_ok, pure_eq_ok, Prod.exists]
  simp

/-- What the empty set has and every connected block keeps, every replay has. -/
theorem replay_inv (P : List Block → UtxoState → Prop) (init : P [] .new)
    (step : ∀ chain s block s' undo, replay params verifier chain = .ok s → P chain s →
      s.connectBlock block (chain.length + 1) params verifier = .ok (s', undo) →
      P (chain ++ [block]) s') {chain : List Block} {s : UtxoState}
    (h : replay params verifier chain = .ok s) : P chain s := by
  induction chain using List.reverseRecOn generalizing s with
  | nil =>
    rw [replay, connectAll, pure_eq_ok] at h
    exact h ▸ init
  | append_singleton chain block ih =>
    obtain ⟨t, undo, ht, hconnect⟩ := replay_snoc.mp h
    exact step chain t block s undo ht (ih ht) hconnect

end Oregon
