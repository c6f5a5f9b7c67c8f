/-
The account state (`rp-core/src/state.rs`): balances, nonces, stakes and unstaking requests, keyed by the 33 bytes of a
public key; what makes a transaction applicable, what it does, how a slash empties an account's stake, who may forge the
next block, and the Merkle root of the balances.

Every operation that adds or subtracts takes the `OverflowChecks` of the build. `State.effect` is what a transaction
does when nothing traps, and `applyTx_eq` says that a call that returns did exactly that, in every build. The later
results about states argue about `effect`; they never look inside `applyTx` again.

`Fits` is what the memory of the machine guarantees of a state: its maps have fewer than 2^64 entries, its request lists
fewer than `isize::MAX` bytes. It holds initially and is kept by every operation that returns (`applyTx_fits`).
-/
import RustProof.Lib.BTreeMap
import RustProof.Core.Models

namespace RustProof

structure UnstakeRequest where
  amount : UInt64
  unlockSlot : UInt64
deriving DecidableEq, Repr

structure State where
  balances : BTreeMap PublicKeyBytes UInt64
  nonces : BTreeMap PublicKeyBytes UInt64
  stakes : BTreeMap PublicKeyBytes UInt64
  unstaking : BTreeMap PublicKeyBytes (List UnstakeRequest)
deriving DecidableEq

/-- `EPOCH_LENGTH` -/
def epochLength : UInt64 := 32

/-- `UNSTAKE_LOCK_EPOCHS` -/
def unstakeLockEpochs : UInt64 := 2

/-- bytes of one `UnstakeRequest` in a `Vec` -/
def unstakeRequestSize : ℕ := 16

/-- `isize::MAX` -/
def isizeMax : ℕ := 2 ^ 63 - 1

/-! ## Collections that can grow -/

/-- a bind that returned: both halves did -/
theorem bind_ok {α β : Type} {x : Except Fault α} {f : α → Except Fault β} {b : β} (h : x >>= f = .ok b) :
    ∃ a, x = .ok a ∧ f a = .ok b := by
  cases x with
  | error e => cases h
  | ok a => exact ⟨a, rfl, h⟩

section Grow

variable {K V : Type} [LinearOrder K]

/-- `*map.entry(k).or_insert(d)` changed by `f` -/
def upsert (m : BTreeMap K V) (k : K) (d : V) (f : V → Except Fault V) : Except Fault (BTreeMap K V) := do
  let v ← f (m.getD k d)
  if m.contains k ∨ m.len + 1 < 2 ^ 64 then pure (m.insert k v) else throw .capacity

theorem upsert_ok_iff {m m' : BTreeMap K V} {k : K} {d : V} {f : V → Except Fault V} :
    upsert m k d f = .ok m' ↔
      ∃ v, f (m.getD k d) = .ok v ∧ (m.contains k = true ∨ m.len + 1 < 2 ^ 64) ∧ m' = m.insert k v := by
  constructor
  · intro h
    obtain ⟨v, hv, h⟩ := bind_ok h
    split_ifs at h with hc
    exact ⟨v, hv, hc, (Except.ok.inj h).symm⟩
  · rintro ⟨v, hv, hc, rfl⟩
    unfold upsert
    rw [hv]
    exact if_pos hc

theorem upsert_len {m m' : BTreeMap K V} {k : K} {d : V} {f : V → Except Fault V} (h : upsert m k d f = .ok m')
    (hm : m.len < 2 ^ 64) : m'.len < 2 ^ 64 := by
  obtain ⟨v, -, hc, rfl⟩ := upsert_ok_iff.1 h
  rw [BTreeMap.len_insert]
  rcases hc with hc | hc
  · rwa [if_pos hc]
  · split_ifs <;> omega

end Grow

/-- `Vec::push` -/
def pushRequest (r : UnstakeRequest) (requests : List UnstakeRequest) : Except Fault (List UnstakeRequest) :=
  if (requests.length + 1) * unstakeRequestSize ≤ isizeMax then .ok (requests ++ [r]) else .error .capacity

theorem pushRequest_ok_iff {r : UnstakeRequest} {l l' : List UnstakeRequest} :
    pushRequest r l = .ok l' ↔ (l.length + 1) * unstakeRequestSize ≤ isizeMax ∧ l' = l ++ [r] := by
  unfold pushRequest
  split_ifs with h <;> simp [h, eq_comm]

namespace State

/-- `*map.entry(k).or_insert(0)` raised by `x`, wrapping -/
def bump (m : BTreeMap PublicKeyBytes UInt64) (k : PublicKeyBytes) (x : UInt64) : BTreeMap PublicKeyBytes UInt64 :=
  m.insert k (m.getD k 0 + x)

/-- `*map.entry(k).or_insert(0)` lowered by `x`, wrapping -/
def drop (m : BTreeMap PublicKeyBytes UInt64) (k : PublicKeyBytes) (x : UInt64) : BTreeMap PublicKeyBytes UInt64 :=
  m.insert k (m.getD k 0 - x)

theorem upsert_add {ck : OverflowChecks} {site : ArithSite} {m m' : BTreeMap PublicKeyBytes UInt64}
    {k : PublicKeyBytes} {x : UInt64} (h : upsert m k 0 (fun v => addU64 ck site v x) = .ok m') : m' = bump m k x := by
  obtain ⟨v, hv, -, rfl⟩ := upsert_ok_iff.1 h
  rw [addU64_eq hv]; rfl

theorem upsert_sub {ck : OverflowChecks} {site : ArithSite} {m m' : BTreeMap PublicKeyBytes UInt64}
    {k : PublicKeyBytes} {x : UInt64} (h : upsert m k 0 (fun v => subU64 ck site v x) = .ok m') : m' = drop m k x := by
  obtain ⟨v, hv, -, rfl⟩ := upsert_ok_iff.1 h
  rw [subU64_eq hv]; rfl

/-! ## What memory guarantees -/

def new : State := ⟨.empty, .empty, .empty, .empty⟩

structure Fits (s : State) : Prop where
  balances : s.balances.len < 2 ^ 64
  nonces : s.nonces.len < 2 ^ 64
  stakes : s.stakes.len < 2 ^ 64
  unstaking : s.unstaking.len < 2 ^ 64
  requests : ∀ k l, s.unstaking.get? k = some l → l.length * unstakeRequestSize ≤ isizeMax

theorem new_fits : new.Fits := ⟨by decide, by decide, by decide, by decide, fun k l h => by simp [new] at h⟩

variable [Crypto]

/-! ## Reading -/

def getBalance (s : State) (account : VerifyingKey) : UInt64 := s.balances.getD (verifyingKeyToBytes account) 0

def getNonce (s : State) (account : VerifyingKey) : UInt64 := s.nonces.getD (verifyingKeyToBytes account) 0

/-- the balance, stake or proof that the kind of transaction needs -/
def covers (s : State) (tx : Transaction) : Bool :=
  match tx.data with
  | .transfer _ amount => !(s.getBalance tx.sender < amount)
  | .stake amount => !(s.getBalance tx.sender < amount)
  | .unstake amount => !(s.stakes.getD (verifyingKeyToBytes tx.sender) 0 < amount)
  | .slash proof => proof.validate.isOk

def isValidTx (s : State) (tx : Transaction) : Bool :=
  if !s.covers tx then false
  else if tx.sequence ≠ s.getNonce tx.sender then false
  else tx.isValid

theorem isValidTx_iff (s : State) (tx : Transaction) :
    s.isValidTx tx = true ↔ s.covers tx = true ∧ tx.sequence = s.getNonce tx.sender ∧ tx.isValid = true := by
  unfold isValidTx
  by_cases h1 : s.covers tx = true <;> by_cases h2 : tx.sequence = s.getNonce tx.sender <;> simp [h1, h2]

/-! ## Writing -/

def applySlash (s : State) (proof : SlashProof) : Except SlashError State :=
  match proof.validate with
  | .error e => .error e
  | .ok () =>
    .ok { s with
      stakes := s.stakes.remove (verifyingKeyToBytes proof.validator)
      unstaking := s.unstaking.remove (verifyingKeyToBytes proof.validator) }

/-- a slash without the check of its proof -/
def slashed (s : State) (proof : SlashProof) : State :=
  { s with
    stakes := s.stakes.remove (verifyingKeyToBytes proof.validator)
    unstaking := s.unstaking.remove (verifyingKeyToBytes proof.validator) }

theorem applySlash_ok_iff {s s' : State} {proof : SlashProof} :
    s.applySlash proof = .ok s' ↔ proof.validate = .ok () ∧ s' = s.slashed proof := by
  unfold applySlash
  cases proof.validate with
  | error e => simp
  | ok u => simp [slashed, eq_comm]

def applyTx (ck : OverflowChecks) (s : State) (tx : Transaction) (currentSlot : UInt64) : Except Fault State :=
  let sender := verifyingKeyToBytes tx.sender
  match tx.data with
  | .transfer receiver amount => do
    let balances ← upsert s.balances sender 0 fun v => subU64 ck .balance v amount
    let balances ← upsert balances (verifyingKeyToBytes receiver) 0 fun v => addU64 ck .balance v amount
    let nonces ← upsert s.nonces sender 0 fun v => addU64 ck .nonce v 1
    pure { s with balances := balances, nonces := nonces }
  | .stake amount => do
    let balances ← upsert s.balances sender 0 fun v => subU64 ck .balance v amount
    let stakes ← upsert s.stakes sender 0 fun v => addU64 ck .stake v amount
    let nonces ← upsert s.nonces sender 0 fun v => addU64 ck .nonce v 1
    pure { s with balances := balances, stakes := stakes, nonces := nonces }
  | .unstake amount => do
    let stakes ← upsert s.stakes sender 0 fun v => subU64 ck .stake v amount
    let unlockSlot ← addU64 ck .unlockSlot currentSlot (unstakeLockEpochs * epochLength)
    let unstaking ← upsert s.unstaking sender [] (pushRequest ⟨amount, unlockSlot⟩)
    let nonces ← upsert s.nonces sender 0 fun v => addU64 ck .nonce v 1
    pure { s with stakes := stakes, unstaking := unstaking, nonces := nonces }
  | .slash proof => do
    -- the result of `apply_slash` is dropped: a refused proof leaves the state as it is
    let s := match s.applySlash proof with
      | .ok s' => s'
      | .error _ => s
    let nonces ← upsert s.nonces sender 0 fun v => addU64 ck .nonce v 1
    pure { s with nonces := nonces }

/-- what a transaction does when nothing traps -/
def effect (s : State) (tx : Transaction) (currentSlot : UInt64) : State :=
  let sender := verifyingKeyToBytes tx.sender
  match tx.data with
  | .transfer receiver amount =>
    { s with
      balances := bump (drop s.balances sender amount) (verifyingKeyToBytes receiver) amount
      nonces := bump s.nonces sender 1 }
  | .stake amount =>
    { s with
      balances := drop s.balances sender amount
      stakes := bump s.stakes sender amount
      nonces := bump s.nonces sender 1 }
  | .unstake amount =>
    { s with
      stakes := drop s.stakes sender amount
      unstaking := s.unstaking.insert sender
        (s.unstaking.getD sender [] ++ [⟨amount, currentSlot + unstakeLockEpochs * epochLength⟩])
      nonces := bump s.nonces sender 1 }
  | .slash proof =>
    let s := match s.applySlash proof with
      | .ok s' => s'
      | .error _ => s
    { s with nonces := bump s.nonces sender 1 }

/-- every kind of transaction counts itself in its sender's nonce, and nothing else writes nonces -/
theorem effect_nonces (s : State) (tx : Transaction) (slot : UInt64) :
    (s.effect tx slot).nonces = bump s.nonces (verifyingKeyToBytes tx.sender) 1 := by
  unfold effect
  cases tx.data with
  | transfer r a => rfl
  | stake a => rfl
  | unstake a => rfl
  | slash p =>
    simp only [applySlash]
    cases p.validate <;> rfl

/-! ## A returned `apply_tx` did the effect -/

theorem applyTx_eq {ck : OverflowChecks} {s s' : State} {tx : Transaction} {slot : UInt64}
    (h : s.applyTx ck tx slot = .ok s') : s' = s.effect tx slot := by
  unfold applyTx at h
  unfold effect
  split at h
  · obtain ⟨b1, h1, h⟩ := bind_ok h
    obtain ⟨b2, h2, h⟩ := bind_ok h
    obtain ⟨n, h3, h⟩ := bind_ok h
    cases upsert_sub h1; cases upsert_add h2; cases upsert_add h3
    exact (Except.ok.inj h).symm
  · obtain ⟨b, h1, h⟩ := bind_ok h
    obtain ⟨st, h2, h⟩ := bind_ok h
    obtain ⟨n, h3, h⟩ := bind_ok h
    cases upsert_sub h1; cases upsert_add h2; cases upsert_add h3
    exact (Except.ok.inj h).symm
  · obtain ⟨st, h1, h⟩ := bind_ok h
    obtain ⟨u, h2, h⟩ := bind_ok h
    obtain ⟨un, h3, h⟩ := bind_ok h
    obtain ⟨n, h4, h⟩ := bind_ok h
    obtain ⟨l, hl, -, rfl⟩ := upsert_ok_iff.1 h3
    obtain ⟨-, rfl⟩ := pushRequest_ok_iff.1 hl
    cases upsert_sub h1; cases upsert_add h4; cases addU64_eq h2
    exact (Except.ok.inj h).symm
  · obtain ⟨n, h1, h⟩ := bind_ok h
    cases upsert_add h1
    exact (Except.ok.inj h).symm

/-! ## Who forges the next block -/

/-- the stakes whose key bytes decode, in key order -/
def validStakes (s : State) : List (UInt64 × VerifyingKey) :=
  s.stakes.entries.filterMap fun e => (verifyingKeyFromBytes e.1).map fun key => (e.2, key)

/-- `.sum()`, from `acc` on -/
def sumStakes (ck : OverflowChecks) : UInt64 → List (UInt64 × VerifyingKey) → Except Fault UInt64
  | acc, [] => .ok acc
  | acc, (stake, _) :: rest => do
    let acc ← addU64 ck .stakeSum acc stake
    sumStakes ck acc rest

/-- the loop over `cumulative_stake` -/
def pickValidator (ck : OverflowChecks) (winningTicket : UInt64) :
    UInt64 → List (UInt64 × VerifyingKey) → Except Fault (Option VerifyingKey)
  | _, [] => .ok none
  | cumulative, (stake, key) :: rest => do
    let cumulative ← addU64 ck .stakeSum cumulative stake
    if winningTicket < cumulative then pure (some key) else pickValidator ck winningTicket cumulative rest

def getExpectedValidator (ck : OverflowChecks) (s : State) (nextBlockHeight : UInt64) :
    Except Fault (Option VerifyingKey) :=
  if s.stakes.isEmpty then .ok none
  else do
    let totalStake ← sumStakes ck 0 s.validStakes
    if totalStake = 0 then pure none else pickValidator ck (nextBlockHeight % totalStake) 0 s.validStakes

/-! ## The state root -/

/-- one level up: hash the nodes in pairs, an odd last node with itself -/
def merkleLevel : List Hash → List Hash
  | [] => []
  | [left] => [sha256 (left.bytes ++ left.bytes)]
  | left :: right :: rest => sha256 (left.bytes ++ right.bytes) :: merkleLevel rest

/-- `while hashes.len() > 1`; each round at least halves the level, so its length is enough rounds -/
def merkleLoop : ℕ → List Hash → List Hash
  | 0, hashes => hashes
  | fuel + 1, hashes => if hashes.length > 1 then merkleLoop fuel (merkleLevel hashes) else hashes

/-- The balances are iterated in key order, which the source's `sort_by_key` leaves as it is. -/
def computeStateRoot (s : State) : Hash :=
  let hashes := s.balances.entries.map fun e => sha256 (e.1.bytes ++ u64ToBe e.2)
  ((merkleLoop hashes.length hashes).getLast?).getD (U8Array.zero 32)

/-! ## Every operation keeps the state within memory -/

theorem slashed_fits {s : State} (h : s.Fits) (proof : SlashProof) : (s.slashed proof).Fits := by
  have hlen : ∀ {V : Type} (m : BTreeMap PublicKeyBytes V) k, m.len < 2 ^ 64 → (m.remove k).len < 2 ^ 64 := by
    intro V m k hm
    cases hk : m.get? k with
    | none =>
      have : m.remove k = m := BTreeMap.ext_get? fun k' => by
        rw [BTreeMap.get?_remove]; split_ifs with hkk
        · rw [← hkk, hk]
        · rfl
      rwa [this]
    | some v => have := BTreeMap.len_remove hk; omega
  refine ⟨h.balances, h.nonces, hlen _ _ h.stakes, hlen _ _ h.unstaking, fun k l hl => ?_⟩
  simp only [slashed, BTreeMap.get?_remove] at hl
  split_ifs at hl
  exact h.requests k l hl

theorem applySlash_fits {s s' : State} (h : s.Fits) {proof : SlashProof} (hs : s.applySlash proof = .ok s') : s'.Fits := by
  rw [(applySlash_ok_iff.1 hs).2]
  exact slashed_fits h proof

theorem applyTx_fits {ck : OverflowChecks} {s s' : State} {tx : Transaction} {slot : UInt64} (hf : s.Fits)
    (h : s.applyTx ck tx slot = .ok s') : s'.Fits := by
  unfold applyTx at h
  split at h
  · obtain ⟨b1, h1, h⟩ := bind_ok h
    obtain ⟨b2, h2, h⟩ := bind_ok h
    obtain ⟨n, h3, h⟩ := bind_ok h
    cases h
    exact { hf with balances := upsert_len h2 (upsert_len h1 hf.balances), nonces := upsert_len h3 hf.nonces }
  · obtain ⟨b, h1, h⟩ := bind_ok h
    obtain ⟨st, h2, h⟩ := bind_ok h
    obtain ⟨n, h3, h⟩ := bind_ok h
    cases h
    exact { hf with
      balances := upsert_len h1 hf.balances, stakes := upsert_len h2 hf.stakes, nonces := upsert_len h3 hf.nonces }
  · obtain ⟨st, h1, h⟩ := bind_ok h
    obtain ⟨u, h2, h⟩ := bind_ok h
    obtain ⟨un, h3, h⟩ := bind_ok h
    obtain ⟨n, h4, h⟩ := bind_ok h
    cases h
    refine { hf with
      stakes := upsert_len h1 hf.stakes, unstaking := upsert_len h3 hf.unstaking, nonces := upsert_len h4 hf.nonces,
      requests := fun k l hl => ?_ }
    obtain ⟨l', hl', -, rfl⟩ := upsert_ok_iff.1 h3
    obtain ⟨hcap, rfl⟩ := pushRequest_ok_iff.1 hl'
    simp only [BTreeMap.get?_insert] at hl
    split_ifs at hl
    · cases hl; simpa using hcap
    · exact hf.requests k l hl
  · obtain ⟨n, h1, h⟩ := bind_ok h
    cases h
    cases hs : s.applySlash _ with
    | error e => simp only [hs] at h1 ⊢; exact { hf with nonces := upsert_len h1 hf.nonces }
    | ok s1 =>
      simp only [hs] at h1 ⊢
      have hf1 := applySlash_fits hf hs
      exact { hf1 with nonces := upsert_len h1 hf1.nonces }

end State

end RustProof
