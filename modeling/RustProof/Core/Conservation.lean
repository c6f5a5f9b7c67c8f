/-
Conservation of value: the ledger neither mints nor loses coins, except where a slash burns them.

`total` is the exact sum of all balances, stakes and unstaking amounts. `lossAlong` adds up what the slashes of a run
remove, each at the state it meets.

Results, for every build and every state with `total < 2^64`:
- `opStep_total`: one operation takes exactly its slash loss off the total, and none of its additions or subtractions on
  a balance or a stake overflows, so it also runs with these checked (`checkingValue`);
- `conservation_along_chain`: the same for every chain of accepted blocks, with the stake sums of the validator election
  checked too.
No local check bounds a credit. What bounds it is the sum: the credited amount was just debited somewhere else.
-/
import RustProof.Core.Sample

namespace RustProof

/-- the build that also traps on every overflow of a balance, a stake or a stake sum -/
def OverflowChecks.checkingValue (ck : OverflowChecks) : OverflowChecks
  | .balance | .stake | .stakeSum => true
  | site => ck site

/-- the nonce is not a value: its checks are those of the build -/
theorem addU64_checkingValue_nonce (ck : OverflowChecks) (a b : UInt64) :
    addU64 ck.checkingValue .nonce a b = addU64 ck .nonce a b := rfl

/-! ## The sum of one map -/

def coins (m : BTreeMap PublicKeyBytes UInt64) : ℕ := m.weight UInt64.toNat

def requestCoins (l : List UnstakeRequest) : ℕ := (l.map fun r => r.amount.toNat).sum

theorem coins_at (m : BTreeMap PublicKeyBytes UInt64) (k : PublicKeyBytes) :
    ((m.get? k).map UInt64.toNat).getD 0 = (m.getD k 0).toNat := by
  unfold BTreeMap.getD
  cases m.get? k <;> rfl

theorem getD_le_coins (m : BTreeMap PublicKeyBytes UInt64) (k : PublicKeyBytes) : (m.getD k 0).toNat ≤ coins m := by
  rw [← coins_at]
  exact BTreeMap.weight_get?_le UInt64.toNat m k

/-- a covered debit takes exactly `x` off the map -/
theorem coins_drop {m : BTreeMap PublicKeyBytes UInt64} {k : PublicKeyBytes} {x : UInt64} (h : x ≤ m.getD k 0) :
    coins (State.drop m k x) + x.toNat = coins m := by
  have hw := BTreeMap.weight_insert UInt64.toNat m k (m.getD k 0 - x)
  rw [coins_at, UInt64.toNat_sub_of_le _ _ h] at hw
  have := UInt64.le_iff_toNat_le.1 h
  simp only [coins, State.drop]
  omega

/-- a credit that keeps the map's sum below 2^64 adds exactly `x` -/
theorem coins_bump {m : BTreeMap PublicKeyBytes UInt64} (k : PublicKeyBytes) {x : UInt64}
    (h : coins m + x.toNat < 2 ^ 64) : coins (State.bump m k x) = coins m + x.toNat := by
  have hle := getD_le_coins m k
  have hw := BTreeMap.weight_insert UInt64.toNat m k (m.getD k 0 + x)
  rw [coins_at, toNat_add_of_lt (by omega)] at hw
  simp only [coins, State.bump] at *
  omega

/-! ## The sum of a state -/

def State.total (s : State) : ℕ := coins s.balances + coins s.stakes + s.unstaking.weight requestCoins

/-- what a slash of `k` takes: its stake and its unstaking requests -/
def State.atStake (s : State) (k : PublicKeyBytes) : ℕ :=
  (s.stakes.getD k 0).toNat + requestCoins (s.unstaking.getD k [])

theorem requests_at (m : BTreeMap PublicKeyBytes (List UnstakeRequest)) (k : PublicKeyBytes) :
    ((m.get? k).map requestCoins).getD 0 = requestCoins (m.getD k []) := by
  unfold BTreeMap.getD
  cases m.get? k <;> rfl

section Ledger

variable [Crypto]

/-- what an operation burns in state `s` -/
def State.opLoss (s : State) : LedgerOp → ℕ
  | .tx t _ =>
    match t.data with
    | .slash proof => s.atStake (verifyingKeyToBytes proof.validator)
    | _ => 0
  | .slash proof => s.atStake (verifyingKeyToBytes proof.validator)

/-- what a run burns, each slash at the state it meets -/
def lossAlong : State → List LedgerOp → ℕ
  | _, [] => 0
  | s, op :: ops => s.opLoss op + lossAlong (s.opEffect op) ops

theorem slashed_total (s : State) (proof : SlashProof) :
    (s.slashed proof).total + s.atStake (verifyingKeyToBytes proof.validator) = s.total := by
  have h1 := BTreeMap.weight_remove UInt64.toNat s.stakes (verifyingKeyToBytes proof.validator)
  have h2 := BTreeMap.weight_remove requestCoins s.unstaking (verifyingKeyToBytes proof.validator)
  rw [coins_at] at h1
  rw [requests_at] at h2
  simp only [State.total, State.slashed, State.atStake, coins]
  omega

omit [Crypto] in
/-- the same update with more checks, none of which fires -/
theorem upsert_of_ok {K V : Type} [LinearOrder K] {m m' : BTreeMap K V} {k : K} {d : V} {f g : V → Except Fault V}
    (h : upsert m k d f = .ok m') (hg : ∀ w, f (m.getD k d) = .ok w → g (m.getD k d) = .ok w) :
    upsert m k d g = .ok m' := by
  obtain ⟨v, hv, hc, rfl⟩ := upsert_ok_iff.1 h
  exact upsert_ok_iff.2 ⟨v, hg v hv, hc, rfl⟩

omit [Crypto] in
theorem upsert_credit {ck ck' : OverflowChecks} {site : ArithSite} {m m' : BTreeMap PublicKeyBytes UInt64}
    {k : PublicKeyBytes} {x : UInt64} (h : upsert m k 0 (fun v => addU64 ck site v x) = .ok m')
    (hx : coins m + x.toNat < 2 ^ 64) : upsert m k 0 (fun v => addU64 ck' site v x) = .ok m' := by
  refine upsert_of_ok h fun w hw => ?_
  have hle := getD_le_coins m k
  rw [addU64_eq hw]
  exact addU64_of_lt ck' site (by omega)

omit [Crypto] in
theorem upsert_debit {ck ck' : OverflowChecks} {site : ArithSite} {m m' : BTreeMap PublicKeyBytes UInt64}
    {k : PublicKeyBytes} {x : UInt64} (h : upsert m k 0 (fun v => subU64 ck site v x) = .ok m')
    (hx : x ≤ m.getD k 0) : upsert m k 0 (fun v => subU64 ck' site v x) = .ok m' := by
  refine upsert_of_ok h fun w hw => ?_
  rw [subU64_eq hw]
  exact subU64_of_le ck' site hx

/-! ## One operation -/

/-- the amount a valid transfer, stake or unstake moves is there -/
theorem State.covers_le {s : State} {tx : Transaction} (hc : s.covers tx = true) :
    (∀ r a, tx.data = .transfer r a → a ≤ s.getBalance tx.sender) ∧
    (∀ a, tx.data = .stake a → a ≤ s.getBalance tx.sender) ∧
    (∀ a, tx.data = .unstake a → a ≤ s.stakes.getD (verifyingKeyToBytes tx.sender) 0) := by
  refine ⟨fun r a hd => ?_, fun a hd => ?_, fun a hd => ?_⟩ <;>
  · simp only [State.covers, hd, Bool.not_eq_true', decide_eq_false_iff_not, UInt64.not_lt] at hc
    exact hc

theorem applyTx_total {ck : OverflowChecks} {s s' : State} {tx : Transaction} {slot : UInt64} (ht : s.total < 2 ^ 64)
    (hv : s.isValidTx tx = true) (h : s.applyTx ck tx slot = .ok s') :
    s'.total + s.opLoss (.tx tx slot) = s.total ∧ s.applyTx ck.checkingValue tx slot = .ok s' := by
  have hcov := ((s.isValidTx_iff tx).1 hv).1
  obtain ⟨htr, hst, hun⟩ := State.covers_le hcov
  have heff := State.applyTx_eq h
  unfold State.applyTx at h ⊢
  simp only [State.opLoss]
  simp only [State.effect] at heff
  simp only [State.total] at ht ⊢
  cases hd : tx.data with
  | transfer r a =>
    simp only [hd] at h heff ⊢
    have hle := htr r a hd
    have hdrop := coins_drop hle
    obtain ⟨b1, h1, h⟩ := bind_ok h
    obtain ⟨b2, h2, h⟩ := bind_ok h
    obtain ⟨n, h3, hret⟩ := bind_ok h
    cases State.upsert_sub h1
    -- the receiver's credit is what the sender was just debited
    have hroom : coins (State.drop s.balances (verifyingKeyToBytes tx.sender) a) + a.toNat < 2 ^ 64 := by omega
    rw [upsert_debit h1 hle]
    refine ⟨?_, ?_⟩
    · rw [heff]
      simp only [coins_bump _ hroom]
      omega
    · simp only [bind, Except.bind, upsert_credit h2 hroom, addU64_checkingValue_nonce, h3]
      exact hret
  | stake a =>
    simp only [hd] at h heff ⊢
    have hle := hst a hd
    have hdrop := coins_drop hle
    obtain ⟨b, h1, h⟩ := bind_ok h
    obtain ⟨st, h2, h⟩ := bind_ok h
    obtain ⟨n, h3, hret⟩ := bind_ok h
    have hroom : coins s.stakes + a.toNat < 2 ^ 64 := by omega
    rw [upsert_debit h1 hle]
    refine ⟨?_, ?_⟩
    · rw [heff]
      simp only [coins_bump _ hroom]
      omega
    · simp only [bind, Except.bind, upsert_credit h2 hroom, addU64_checkingValue_nonce, h3]
      exact hret
  | unstake a =>
    simp only [hd] at h heff ⊢
    have hle := hun a hd
    have hdrop := coins_drop hle
    obtain ⟨st, h1, h⟩ := bind_ok h
    rw [upsert_debit h1 hle]
    refine ⟨?_, h⟩
    have hreq := BTreeMap.weight_insert requestCoins s.unstaking (verifyingKeyToBytes tx.sender)
      (s.unstaking.getD (verifyingKeyToBytes tx.sender) [] ++ [⟨a, slot + unstakeLockEpochs * epochLength⟩])
    rw [requests_at] at hreq
    have happ : requestCoins (s.unstaking.getD (verifyingKeyToBytes tx.sender) [] ++
        [⟨a, slot + unstakeLockEpochs * epochLength⟩]) =
        requestCoins (s.unstaking.getD (verifyingKeyToBytes tx.sender) []) + a.toNat := by
      simp [requestCoins]
    rw [heff]
    simp only
    omega
  | slash proof =>
    simp only [hd] at h heff ⊢
    refine ⟨?_, h⟩
    have hval := State.covers_slash hd hcov
    have hsl := slashed_total s proof
    rw [heff]
    simp only [State.applySlash, hval]
    simp only [State.total, State.slashed] at hsl
    exact hsl

theorem opStep_total {ck : OverflowChecks} {s s' : State} {op : LedgerOp} (ht : s.total < 2 ^ 64)
    (h : OpStep ck s op s') : s'.total + s.opLoss op = s.total ∧ OpStep ck.checkingValue s op s' := by
  cases h with
  | tx hv happ =>
    obtain ⟨h1, h2⟩ := applyTx_total ht hv happ
    exact ⟨h1, .tx hv h2⟩
  | slash happ =>
    refine ⟨?_, .slash happ⟩
    rw [(State.applySlash_ok_iff.1 happ).2]
    exact slashed_total s _

/-! ## A run of operations -/

theorem opRun_total {ck : OverflowChecks} {s s' : State} {ops : List LedgerOp} (ht : s.total < 2 ^ 64)
    (h : OpRun ck s ops s') : s'.total + lossAlong s ops = s.total ∧ OpRun ck.checkingValue s ops s' := by
  induction h with
  | nil s => exact ⟨rfl, .nil s⟩
  | cons hd tl ih =>
    obtain ⟨h1, h2⟩ := opStep_total ht hd
    obtain ⟨i1, i2⟩ := ih (by omega)
    refine ⟨?_, .cons h2 i2⟩
    simp only [lossAlong, ← hd.eq_opEffect]
    omega

/-! ## The validator election -/

/-- the sum of the election's stakes -/
def stakeSum (l : List (UInt64 × VerifyingKey)) : ℕ := (l.map fun e => e.1.toNat).sum

theorem stakeSum_validStakes_le (s : State) : stakeSum s.validStakes ≤ coins s.stakes := by
  unfold stakeSum State.validStakes coins BTreeMap.weight
  induction s.stakes.entries with
  | nil => simp
  | cons e l ih =>
    cases hk : verifyingKeyFromBytes e.1 with
    | none => simp only [List.filterMap_cons, hk, Option.map_none, List.map_cons, List.sum_cons]; omega
    | some k => simp only [List.filterMap_cons, hk, Option.map_some, List.map_cons, List.sum_cons]; omega

theorem sumStakes_congr (ck ck' : OverflowChecks) (l : List (UInt64 × VerifyingKey)) (acc : UInt64)
    (h : acc.toNat + stakeSum l < 2 ^ 64) : State.sumStakes ck acc l = State.sumStakes ck' acc l := by
  induction l generalizing acc with
  | nil => rfl
  | cons e l ih =>
    simp only [stakeSum, List.map_cons, List.sum_cons] at h
    have hlt : acc.toNat + e.1.toNat < 2 ^ 64 := by omega
    simp only [State.sumStakes, addU64_of_lt ck .stakeSum hlt, addU64_of_lt ck' .stakeSum hlt]
    exact ih (acc + e.1) (by rw [toNat_add_of_lt hlt]; simp only [stakeSum]; omega)

theorem pickValidator_congr (ck ck' : OverflowChecks) (ticket : UInt64) (l : List (UInt64 × VerifyingKey))
    (acc : UInt64) (h : acc.toNat + stakeSum l < 2 ^ 64) :
    State.pickValidator ck ticket acc l = State.pickValidator ck' ticket acc l := by
  induction l generalizing acc with
  | nil => rfl
  | cons e l ih =>
    simp only [stakeSum, List.map_cons, List.sum_cons] at h
    have hlt : acc.toNat + e.1.toNat < 2 ^ 64 := by omega
    have htail := ih (acc + e.1) (by rw [toNat_add_of_lt hlt]; simp only [stakeSum]; omega)
    simp only [State.pickValidator, addU64_of_lt ck .stakeSum hlt, addU64_of_lt ck' .stakeSum hlt, bind, Except.bind,
      htail]

/-- no sum of the election overflows, so every build elects the same validator -/
theorem getExpectedValidator_congr (ck ck' : OverflowChecks) {s : State} (ht : s.total < 2 ^ 64) (height : UInt64) :
    s.getExpectedValidator ck height = s.getExpectedValidator ck' height := by
  have hle := stakeSum_validStakes_le s
  have hsum : (0 : UInt64).toNat + stakeSum s.validStakes < 2 ^ 64 := by
    simp only [State.total] at ht
    simp only [UInt64.toNat_zero]
    omega
  simp only [State.getExpectedValidator, sumStakes_congr ck ck' _ _ hsum, pickValidator_congr ck ck' _ _ _ hsum]

/-! ## Whole chains -/

theorem accepted_total {ck : OverflowChecks} {parent b : Block} {s s' : State} (ht : s.total < 2 ^ 64)
    (h : Accepted ck parent s b s') :
    s'.total + lossAlong s b.ops = s.total ∧ Accepted ck.checkingValue parent s b s' := by
  obtain ⟨h1, h2⟩ := opRun_total ht h.ops
  exact ⟨h1, { h with
    ops := h2
    validator := by rw [getExpectedValidator_congr ck.checkingValue ck ht]; exact h.validator }⟩

theorem lossAlong_append {ck : OverflowChecks} {s s' : State} {l : List LedgerOp} (l' : List LedgerOp)
    (h : OpRun ck s l s') : lossAlong s (l ++ l') = lossAlong s l + lossAlong s' l' := by
  induction h with
  | nil s => simp [lossAlong]
  | cons hd tl ih =>
    simp only [List.cons_append, lossAlong, ← hd.eq_opEffect, ih]
    omega

/-- **Conservation of value.** From a state whose total is below 2^64, along any chain of accepted blocks: no balance,
stake or stake sum overflows (the chain is accepted with these checked, to the same state), and the total shrinks by
exactly what the slashes remove at the moments they are applied. -/
theorem conservation_along_chain (ck : OverflowChecks) (parent : Block) (s s' : State) (bs : List Block)
    (ht : s.total < 2 ^ 64) (h : replay ck parent s bs = .ok (.ok s')) :
    replay ck.checkingValue parent s bs = .ok (.ok s') ∧
      s'.total + lossAlong s (chainOps bs) = s.total ∧ s'.total ≤ s.total := by
  induction bs generalizing parent s with
  | nil => cases h; exact ⟨rfl, rfl, le_rfl⟩
  | cons b bs ih =>
    obtain ⟨s1, hacc, h⟩ := replay_cons_ok_iff.1 h
    obtain ⟨h1, h2⟩ := accepted_total ht hacc
    obtain ⟨i1, i2, i3⟩ := ih b s1 (by omega) h
    refine ⟨replay_cons_ok_iff.2 ⟨s1, h2, i1⟩, ?_, by omega⟩
    rw [show chainOps (b :: bs) = b.ops ++ chainOps bs from rfl, lossAlong_append (chainOps bs) hacc.ops]
    omega

end Ledger

section Witness

open Sample

theorem conservation_along_sample :
    replay OverflowChecks.release.checkingValue genesis start [block₁, block₂] = .ok (.ok final) ∧
      final.total + lossAlong start (chainOps [block₁, block₂]) = start.total ∧ final.total ≤ start.total :=
  conservation_along_chain .release genesis start final [block₁, block₂] (by decide) chain_accepted

end Witness

end RustProof
