/-
What the check of a startup snapshot is worth (`NodeEngine::restore_latest_snapshot`).

A snapshot is installed when its bytes decode and the state root of the decoded state is the one the block carries. The
root is computed from the balances alone, so that is what the check settles: two snapshots installed for one block have the
same balances, as far as SHA-256 does not collide on the strings hashed for the two roots (`restored_balances_agree`). A
snapshot with another nonce, stake or unstaking request passes the check as well (`restored_states_differ`).

Bytes that are cut short never reach the check (`restore_truncated`).
-/
import RustProof.Core.Commitment
import RustProof.Node.Ledger

namespace RustProof

section General

variable [Crypto]

/-- the one report of an installed snapshot -/
def restoredReport : List NodeAction := [.reportEvent "startup snapshot restored"]

/-- a snapshot reported as restored was decoded, had the block's state root and is what is installed -/
theorem restored_state {e e' : NodeEngine} {block : Block} {bytes : List UInt8}
    (h : e.restoreLatestSnapshot (some block) (some bytes) = .ok (e', restoredReport)) :
    State.fromBytes bytes = .ok (.ok e'.blockchain.state) ∧
      block.stateRoot = e'.blockchain.state.computeStateRoot ∧ e'.blockchain.headHash = block.hash := by
  cases hdec : State.fromBytes bytes with
  | error f => simp [NodeEngine.restoreLatestSnapshot, hdec] at h
  | ok r =>
    cases r with
    | error m => simp [NodeEngine.restoreLatestSnapshot, hdec, restoredReport] at h
    | ok s =>
      obtain ⟨hroot, rfl⟩ := restore_accepted hdec h
      exact ⟨rfl, hroot, rfl⟩

/-- a partly written snapshot leaves the engine as it is -/
theorem restore_truncated (e : NodeEngine) (block : Block) {s : State} (hs : s.Fits) {p : List UInt8}
    (hp : CutOf p s.toBytes) :
    e.restoreLatestSnapshot (some block) (some p) = .ok (e, [.reportEvent "invalid startup snapshot bytes"]) := by
  obtain ⟨m, hm⟩ := fromBytes_truncated hs hp
  simp only [NodeEngine.restoreLatestSnapshot, hm]

/-- **Snapshot restore settles the balances.** Two byte strings that are both reported as restored for one block install
the same balances, unless two different strings hashed for the state roots have one hash or one of them hashes to the zero
root of the empty map. -/
theorem restored_balances_agree (e : NodeEngine) (block : Block) {b₁ b₂ : List UInt8} {e₁ e₂ : NodeEngine}
    (h₁ : e.restoreLatestSnapshot (some block) (some b₁) = .ok (e₁, restoredReport))
    (h₂ : e.restoreLatestSnapshot (some block) (some b₂) = .ok (e₂, restoredReport)) :
    e₁.blockchain.state.balances = e₂.blockchain.state.balances ∨
      Collides (e₁.blockchain.state.rootInputs ++ e₂.blockchain.state.rootInputs) ∨
      ∃ x ∈ e₁.blockchain.state.rootInputs ++ e₂.blockchain.state.rootInputs, sha256 x = U8Array.zero 32 := by
  obtain ⟨-, hroot₁, -⟩ := restored_state h₁
  obtain ⟨-, hroot₂, -⟩ := restored_state h₂
  by_cases hcol : Collides (e₁.blockchain.state.rootInputs ++ e₂.blockchain.state.rootInputs)
  · exact .inr (.inl hcol)
  · by_cases hzero : ∃ x ∈ e₁.blockchain.state.rootInputs ++ e₂.blockchain.state.rootInputs, sha256 x = U8Array.zero 32
    · exact .inr (.inr hzero)
    · refine .inl (State.balances_eq_of_computeStateRoot_eq hcol (fun x hx hx0 => hzero ⟨x, hx, hx0⟩) ?_)
      rw [← hroot₁, hroot₂]

end General

section Witness

open Sample

/-- `start` with another nonce, another stake and a request nobody made -/
def tampered : State :=
  { start with
    nonces := BTreeMap.empty.insert (key 2) 7
    stakes := BTreeMap.empty.insert (key 4) 1000
    unstaking := BTreeMap.empty.insert (key 2) [⟨50, 1⟩] }

/-- a block whose post-state is `start` -/
def startBlock : Block := child genesis 1 (key 3) [] [] start.computeStateRoot

theorem start_restored (e : NodeEngine) :
    e.restoreLatestSnapshot (some startBlock) (some start.toBytes) =
      .ok ({ e with blockchain := .restoreHead startBlock start }, restoredReport) :=
  restore_of_root e (by decide +kernel) rfl

theorem tampered_restored (e : NodeEngine) :
    e.restoreLatestSnapshot (some startBlock) (some tampered.toBytes) =
      .ok ({ e with blockchain := .restoreHead startBlock tampered }, restoredReport) :=
  restore_of_root e (by decide +kernel) rfl

theorem restored_balances_agree_tampered :
    ((NodeEngine.new .new).restoreLatestSnapshot (some startBlock) (some start.toBytes) =
        .ok ({ NodeEngine.new .new with blockchain := .restoreHead startBlock start }, restoredReport) ∧
      (NodeEngine.new .new).restoreLatestSnapshot (some startBlock) (some tampered.toBytes) =
        .ok ({ NodeEngine.new .new with blockchain := .restoreHead startBlock tampered }, restoredReport)) ∧
      (start.balances = tampered.balances ∨ Collides (start.rootInputs ++ tampered.rootInputs) ∨
        ∃ x ∈ start.rootInputs ++ tampered.rootInputs, sha256 x = U8Array.zero 32) :=
  ⟨⟨start_restored _, tampered_restored _⟩,
    restored_balances_agree (NodeEngine.new .new) startBlock (start_restored _) (tampered_restored _)⟩

/-- Two snapshots restored for one block whose states differ in a nonce, a stake and an unstaking request, although the
only string hashed for either root is the one of the only balance. -/
theorem restored_states_differ :
    ∃ e₁ e₂ : NodeEngine,
      (NodeEngine.new .new).restoreLatestSnapshot (some startBlock) (some start.toBytes) = .ok (e₁, restoredReport) ∧
      (NodeEngine.new .new).restoreLatestSnapshot (some startBlock) (some tampered.toBytes) = .ok (e₂, restoredReport) ∧
      e₁.blockchain.state.nonces ≠ e₂.blockchain.state.nonces ∧
      e₁.blockchain.state.stakes ≠ e₂.blockchain.state.stakes ∧
      e₁.blockchain.state.unstaking ≠ e₂.blockchain.state.unstaking ∧
      ¬ Collides (e₁.blockchain.state.rootInputs ++ e₂.blockchain.state.rootInputs) := by
  refine ⟨_, _, start_restored _, tampered_restored _, by decide, by decide, by decide, ?_⟩
  rintro ⟨x, hx, y, hy, hne, -⟩
  have hone : ∀ z ∈ start.rootInputs ++ tampered.rootInputs, z = (key 2).bytes ++ u64ToBe 100 := by decide +kernel
  exact hne ((hone x hx).trans (hone y hy).symm)

end Witness

end RustProof
