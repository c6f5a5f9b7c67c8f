/-
Where block application overflows.

Amounts cannot: no sum exceeds the total value of the state, and every debit is covered. Heights and slots come with the
block and are compared with the parent's only. So the one thing that overflows for a parent at the last height is the
increment of its height, and the one thing that overflows in the transactions is the unlock slot of an `Unstake`.

With value and nonces in range and neither of the two, the checks of the build do not matter (`validate_congr`). In a
release build the unlock slot wraps instead, and the stake can be released at once (`unlocks_in_the_past`).

Results:
- `never_overflows_iff`: a block is applied without an overflow, and all its requests unlock `UNSTAKE_LOCK_EPOCHS` epochs
  after its slot, exactly if `InRange`.
-/
import Mathlib.Data.UInt
import RustProof.Core.Authorisation
import RustProof.Core.Panics

namespace RustProof

/-! ## Arithmetic in range -/

section Range

variable (ck ck' : OverflowChecks) (site : ArithSite)

theorem addU64_congr {a b : UInt64} (h : a.toNat + b.toNat < 2 ^ 64) : addU64 ck site a b = addU64 ck' site a b := by
  rw [addU64_of_lt ck site h, addU64_of_lt ck' site h]

theorem subU64_congr {a b : UInt64} (h : b ≤ a) : subU64 ck site a b = subU64 ck' site a b := by
  rw [subU64_of_le ck site h, subU64_of_le ck' site h]

theorem upsert_congr {K V : Type} [LinearOrder K] {m : BTreeMap K V} {k : K} {d : V} {f g : V → Except Fault V}
    (h : f (m.getD k d) = g (m.getD k d)) : upsert m k d f = upsert m k d g := by
  unfold upsert
  rw [h]

variable {m : BTreeMap PublicKeyBytes UInt64} {k : PublicKeyBytes} {x : UInt64}

theorem credit_congr (h : coins m + x.toNat < 2 ^ 64) :
    upsert m k 0 (fun v => addU64 ck site v x) = upsert m k 0 fun v => addU64 ck' site v x := by
  have hle := getD_le_coins m k
  exact upsert_congr (addU64_congr ck ck' site (by omega))

theorem debit_congr (h : x ≤ m.getD k 0) :
    upsert m k 0 (fun v => subU64 ck site v x) = upsert m k 0 fun v => subU64 ck' site v x :=
  upsert_congr (subU64_congr ck ck' site h)

theorem upsert_release_add (h : m.len + 1 < 2 ^ 64) :
    upsert m k 0 (fun v => addU64 .release site v x) = .ok (State.bump m k x) :=
  upsert_ok_iff.2 ⟨_, if_neg (fun hc => nomatch hc.1), .inr h, rfl⟩

theorem upsert_release_sub (h : m.len + 1 < 2 ^ 64) :
    upsert m k 0 (fun v => subU64 .release site v x) = .ok (State.drop m k x) :=
  upsert_ok_iff.2 ⟨_, if_neg (fun hc => nomatch hc.1), .inr h, rfl⟩

end Range

theorem ok_bind {α β : Type} (a : α) (f : α → Except Fault β) : (Except.ok a : Except Fault α) >>= f = f a := rfl

theorem bind_congr_ok {α β : Type} {x : Except Fault α} {f g : α → Except Fault β} (h : ∀ a, x = .ok a → f a = g a) :
    x >>= f = x >>= g := by
  cases x with
  | error fault => rfl
  | ok a => exact h a rfl

section Overflow

variable [Crypto]

/-! ## What a block may not do -/

/-- whether an `Unstake` is applied: it is valid, and so are the transactions before it -/
def reachesUnstake (slot : UInt64) : List Transaction → State → Bool
  | [], _ => false
  | tx :: txs, s =>
    s.isValidTx tx &&
      match tx.data with
      | .unstake _ => true
      | _ => reachesUnstake slot txs (s.effect tx slot)

/-- the checks before the transactions -/
def HeaderChecked (parent : Block) (s : State) (b : Block) : Prop :=
  b.height = parent.height + 1 ∧ parent.slot < b.slot ∧
    ∃ expected, s.getExpectedValidator .release b.height = .ok expected ∧ ∀ v, expected = some v → b.validator = v

/-- the parent is not at the last height, and an `Unstake` is only applied at a slot whose unlock slot is a `u64` -/
def InRange (parent : Block) (s : State) (b : Block) : Prop :=
  b.isValid = true → parent.height.toNat + 1 < 2 ^ 64 ∧
    (HeaderChecked parent s b → reachesUnstake b.slot b.transactions s = true → b.slot.toNat + 64 < 2 ^ 64)

/-- no nonce gets past the last one in `n` transactions -/
def NoncesBelow (s : State) (n : ℕ) : Prop := ∀ k, (s.nonces.getD k 0).toNat + n < 2 ^ 64

/-- what a 64-bit address space holds: an entry of a map takes at least the 33 bytes of its key, a transaction those of
its sender -/
structure InMemory (s : State) (b : Block) : Prop where
  balances : s.balances.len * publicKeySize < 2 ^ 64
  nonces : s.nonces.len * publicKeySize < 2 ^ 64
  stakes : s.stakes.len * publicKeySize < 2 ^ 64
  transactions : b.transactions.length * publicKeySize < 2 ^ 64

/-! ## One transaction -/

omit [Crypto] in
theorem unlock_toNat {slot : UInt64} (h : slot.toNat + 64 < 2 ^ 64) :
    (slot + unstakeLockEpochs * epochLength).toNat = slot.toNat + 64 := toNat_add_of_lt h

theorem NoncesBelow.effect {s : State} {n : ℕ} (h : NoncesBelow s (n + 1)) (tx : Transaction) (slot : UInt64) :
    NoncesBelow (s.effect tx slot) n := by
  intro k
  have hk := h k
  rw [State.effect_nonces, State.bump, BTreeMap.getD_insert]
  split_ifs with heq
  · rw [heq, toNat_add_of_lt]
    · change _ + 1 + n < _
      omega
    · change _ + 1 < _
      omega
  · omega

/-- in range, a transaction does the same in every build -/
theorem applyTx_congr (ck ck' : OverflowChecks) {s : State} {tx : Transaction} {slot : UInt64} (ht : s.total < 2 ^ 64)
    (hcov : s.covers tx = true) (hn : NoncesBelow s 1)
    (hslot : ∀ a, tx.data = .unstake a → slot.toNat + 64 < 2 ^ 64) : s.applyTx ck tx slot = s.applyTx ck' tx slot := by
  obtain ⟨htr, hst, hun⟩ := State.covers_le hcov
  have hnonce : upsert s.nonces (verifyingKeyToBytes tx.sender) 0 (fun v => addU64 ck .nonce v 1) =
      upsert s.nonces (verifyingKeyToBytes tx.sender) 0 fun v => addU64 ck' .nonce v 1 :=
    upsert_congr (addU64_congr ck ck' .nonce (hn _))
  unfold State.total at ht
  unfold State.applyTx
  cases hd : tx.data with
  | transfer r a =>
    have hle := htr r a hd
    have hdrop := coins_drop hle
    dsimp only
    rw [debit_congr ck ck' .balance hle, hnonce]
    refine bind_congr_ok fun balances hbalances => ?_
    -- the receiver's credit is what the sender was just debited
    cases State.upsert_sub hbalances
    rw [credit_congr ck ck' .balance (by omega)]
  | stake a =>
    have hle := hst a hd
    dsimp only
    have hdrop := coins_drop hle
    rw [debit_congr ck ck' .balance hle, credit_congr ck ck' .stake (by omega), hnonce]
  | unstake a =>
    have hle := hun a hd
    dsimp only
    rw [debit_congr ck ck' .stake hle, addU64_congr ck ck' .unlockSlot (hslot a hd), hnonce]
  | slash proof =>
    simp only [State.applySlash, State.covers_slash hd hcov]
    rw [hnonce]

/-! ## The transactions of a block -/

omit [Crypto] in
theorem NoncesBelow.mono {s : State} {n m : ℕ} (h : NoncesBelow s n) (hle : m ≤ n) : NoncesBelow s m :=
  fun k => lt_of_le_of_lt (Nat.add_le_add_left hle _) (h k)

/-- what is reached behind a valid transaction -/
theorem reachesUnstake_cons (slot : UInt64) (txs : List Transaction) {tx : Transaction} {s : State}
    (hv : s.isValidTx tx = true) :
    (∃ a, tx.data = .unstake a) ∧ reachesUnstake slot (tx :: txs) s = true ∨
    (∀ a, tx.data ≠ .unstake a) ∧ reachesUnstake slot (tx :: txs) s = reachesUnstake slot txs (s.effect tx slot) := by
  rw [reachesUnstake, hv, Bool.true_and]
  cases hd : tx.data with
  | unstake a => exact .inl ⟨⟨a, rfl⟩, rfl⟩
  | transfer r a => exact .inr ⟨fun _ h => (nomatch h), rfl⟩
  | stake a => exact .inr ⟨fun _ h => (nomatch h), rfl⟩
  | slash proof => exact .inr ⟨fun _ h => (nomatch h), rfl⟩

theorem total_effect {ck : OverflowChecks} {s s' : State} {tx : Transaction} {slot : UInt64} (ht : s.total < 2 ^ 64)
    (hv : s.isValidTx tx = true) (h : s.applyTx ck tx slot = .ok s') : s'.total < 2 ^ 64 := by
  have hloss := (applyTx_total ht hv h).1
  omega

theorem applyTransactions_congr (ck ck' : OverflowChecks) {slot : UInt64} (txs : List Transaction) {s : State}
    (ht : s.total < 2 ^ 64) (hn : NoncesBelow s txs.length)
    (hslot : reachesUnstake slot txs s = true → slot.toNat + 64 < 2 ^ 64) :
    applyTransactions ck slot txs s = applyTransactions ck' slot txs s := by
  induction txs generalizing s with
  | nil => rfl
  | cons tx txs ih =>
    rw [applyTransactions, applyTransactions]
    by_cases hv : s.isValidTx tx = true
    · have hcov := ((s.isValidTx_iff tx).1 hv).1
      have hhere : ∀ a, tx.data = .unstake a → slot.toNat + 64 < 2 ^ 64 := by
        intro a hd
        rcases reachesUnstake_cons slot txs hv with ⟨-, hreach⟩ | ⟨hnot, -⟩
        · exact hslot hreach
        · exact absurd hd (hnot a)
      have hrest : reachesUnstake slot txs (s.effect tx slot) = true → slot.toNat + 64 < 2 ^ 64 := by
        intro h
        rcases reachesUnstake_cons slot txs hv with ⟨-, hreach⟩ | ⟨-, hsame⟩
        · exact hslot hreach
        · exact hslot (hsame.trans h)
      rw [applyTx_congr ck ck' ht hcov (hn.mono (by rw [List.length_cons]; omega)) hhere]
      cases happ : s.applyTx ck' tx slot with
      | error f => rfl
      | ok s' =>
        have htotal := total_effect ht hv happ
        cases State.applyTx_eq happ
        dsimp only
        rw [ih htotal (hn.effect tx slot) hrest]
    · rw [Bool.not_eq_true] at hv
      rw [hv]
      rfl

/-! ## The whole block -/

/-- in range, block application does the same in every build -/
theorem validate_congr (ck ck' : OverflowChecks) {parent b : Block} {s : State} (ht : s.total < 2 ^ 64)
    (hn : NoncesBelow s b.transactions.length) (h : InRange parent s b) :
    validateAndApplyBlock ck parent s b = validateAndApplyBlock ck' parent s b := by
  unfold validateAndApplyBlock
  by_cases hvalid : b.isValid = true
  · obtain ⟨hheight, hslot⟩ := h hvalid
    have hsum := addU64_congr ck ck' .height (a := parent.height) (b := 1) hheight
    have hadd : addU64 ck' .height parent.height 1 = .ok (parent.height + 1) := addU64_of_lt ck' .height hheight
    rw [hsum, hadd, getExpectedValidator_congr ck ck' ht]
    dsimp only
    by_cases hh : b.height = parent.height + 1
    · by_cases hs : b.slot ≤ parent.slot
      · simp only [if_pos hs]
      · cases hexp : s.getExpectedValidator ck' b.height with
        | error f => rfl
        | ok expected =>
          dsimp only
          by_cases hval : (expected.any fun v => decide (b.validator ≠ v)) = true
          · simp only [if_pos hval]
          · have hchecked : HeaderChecked parent s b := by
              refine ⟨hh, UInt64.not_le.1 hs, expected, ?_, fun v hv => ?_⟩
              · rw [getExpectedValidator_congr .release ck' ht, hexp]
              · subst hv
                simpa using hval
            rw [applyTransactions_congr ck ck' b.transactions ht hn (hslot hchecked)]
    · simp only [if_pos hh]
  · rw [Bool.not_eq_true] at hvalid
    rw [hvalid]
    rfl

/-! ## Requests -/

/-- the request unlocks `UNSTAKE_LOCK_EPOCHS` epochs after the slot, without wrapping around -/
def UnlocksAfter (slot : UInt64) (r : UnstakeRequest) : Prop :=
  r.unlockSlot.toNat = slot.toNat + unstakeLockEpochs.toNat * epochLength.toNat ∧ slot < r.unlockSlot

omit [Crypto] in
theorem unlocksAfter_of_lt {slot : UInt64} (a : UInt64) (h : slot.toNat + 64 < 2 ^ 64) :
    UnlocksAfter slot ⟨a, slot + unstakeLockEpochs * epochLength⟩ := by
  have hnat := unlock_toNat h
  refine ⟨hnat, ?_⟩
  rw [UInt64.lt_iff_toNat_lt, hnat]
  omega

/-- one of the operations slashes the account -/
def SlashedBy (ops : List LedgerOp) (k : PublicKeyBytes) : Prop :=
  ∃ op ∈ ops, ∃ proof, op.Slashes proof ∧ verifyingKeyToBytes proof.validator = k

/-- The requests that the operations created: those behind the ones an account had, which it keeps unless one of the operations
slashes it. -/
def Created (slot : UInt64) (ops : List LedgerOp) (s s' : State) : Prop :=
  ∀ k, ∃ kept created, s'.unstaking.getD k [] = kept ++ created ∧
    (kept = s.unstaking.getD k [] ∧ ¬ SlashedBy ops k ∨ kept = [] ∧ SlashedBy ops k) ∧
    ∀ r ∈ created, UnlocksAfter slot r

namespace Created

variable {slot : UInt64} {ops ops' : List LedgerOp} {s s' s'' : State}

theorem slashedBy_append {k : PublicKeyBytes} : SlashedBy (ops ++ ops') k ↔ SlashedBy ops k ∨ SlashedBy ops' k := by
  unfold SlashedBy
  simp only [List.mem_append, or_and_right, exists_or]

theorem nil (slot : UInt64) (s : State) : Created slot [] s s := by
  intro k
  refine ⟨s.unstaking.getD k [], [], (List.append_nil _).symm, .inl ⟨rfl, ?_⟩, ?_⟩
  · rintro ⟨op, hop, -⟩
    exact absurd hop List.not_mem_nil
  · intro r hr
    exact absurd hr List.not_mem_nil

theorem append (h : Created slot ops s s') (h' : Created slot ops' s' s'') : Created slot (ops ++ ops') s s'' := by
  intro k
  obtain ⟨kept, l, hl, hkept, hafter⟩ := h k
  obtain ⟨kept', l', hl', hkept', hafter'⟩ := h' k
  rcases hkept' with ⟨rfl, hnot'⟩ | ⟨rfl, hslashed'⟩
  · refine ⟨kept, l ++ l', ?_, ?_, ?_⟩
    · rw [hl', hl, List.append_assoc]
    · rw [slashedBy_append]
      rcases hkept with ⟨heq, hnot⟩ | ⟨heq, hslashed⟩
      · exact .inl ⟨heq, not_or.2 ⟨hnot, hnot'⟩⟩
      · exact .inr ⟨heq, .inl hslashed⟩
    · intro r hr
      rcases List.mem_append.1 hr with hr | hr
      · exact hafter r hr
      · exact hafter' r hr
  · -- what was created before the slash is gone
    exact ⟨[], l', hl', .inr ⟨rfl, slashedBy_append.2 (.inr hslashed')⟩, hafter'⟩

/-- an operation that is no slash and leaves the requests alone -/
theorem of_same {op : LedgerOp} (hop : ∀ proof, ¬ op.Slashes proof) (h : s'.unstaking = s.unstaking) :
    Created slot [op] s s' := by
  intro k
  refine ⟨s.unstaking.getD k [], [], ?_, .inl ⟨rfl, ?_⟩, ?_⟩
  · rw [h, List.append_nil]
  · rintro ⟨op', hop', proof, hproof, -⟩
    rw [List.mem_singleton.1 hop'] at hproof
    exact hop proof hproof
  · intro r hr
    exact absurd hr List.not_mem_nil

theorem of_slash {op : LedgerOp} {proof : SlashProof} (hop : ∀ p, op.Slashes p ↔ p = proof)
    (h : s'.unstaking = s.unstaking.remove (verifyingKeyToBytes proof.validator)) : Created slot [op] s s' := by
  intro k
  by_cases hk : verifyingKeyToBytes proof.validator = k
  · refine ⟨[], [], ?_, .inr ⟨rfl, op, List.mem_singleton_self op, proof, (hop proof).2 rfl, hk⟩, ?_⟩
    · rw [h, BTreeMap.getD, BTreeMap.get?_remove, if_pos hk]
      rfl
    · intro r hr
      exact absurd hr List.not_mem_nil
  · refine ⟨s.unstaking.getD k [], [], ?_, .inl ⟨rfl, ?_⟩, ?_⟩
    · rw [h, BTreeMap.getD, BTreeMap.get?_remove, if_neg hk, List.append_nil]
      rfl
    · rintro ⟨op', hop', p, hp, hpk⟩
      rw [List.mem_singleton.1 hop'] at hp
      rw [(hop p).1 hp] at hpk
      exact hk hpk
    · intro r hr
      exact absurd hr List.not_mem_nil

theorem opEffect {tx : Transaction} (hcov : s.covers tx = true)
    (hslot : ∀ a, tx.data = .unstake a → slot.toNat + 64 < 2 ^ 64) :
    Created slot [.tx tx slot] s (s.effect tx slot) := by
  have hdata : ∀ p, (LedgerOp.tx tx slot).Slashes p ↔ tx.data = .slash p := fun _ => Iff.rfl
  unfold State.effect
  cases hd : tx.data with
  | transfer r a =>
    refine of_same (fun p hp => ?_) rfl
    rw [hdata, hd] at hp
    cases hp
  | stake a =>
    refine of_same (fun p hp => ?_) rfl
    rw [hdata, hd] at hp
    cases hp
  | unstake a =>
    intro k
    have hnot : ¬ SlashedBy [.tx tx slot] k := by
      rintro ⟨op, hop, p, hp, -⟩
      rw [List.mem_singleton.1 hop, hdata, hd] at hp
      cases hp
    dsimp only
    rw [BTreeMap.getD_insert]
    by_cases hk : verifyingKeyToBytes tx.sender = k
    · rw [if_pos hk, hk]
      refine ⟨_, _, rfl, .inl ⟨rfl, hnot⟩, fun r hr => ?_⟩
      rw [List.mem_singleton.1 hr]
      exact unlocksAfter_of_lt a (hslot a hd)
    · rw [if_neg hk]
      exact ⟨_, [], (List.append_nil _).symm, .inl ⟨rfl, hnot⟩, fun r hr => absurd hr List.not_mem_nil⟩
  | slash proof =>
    have hop : ∀ p, (LedgerOp.tx tx slot).Slashes p ↔ p = proof := by
      intro p
      rw [hdata, hd, TransactionData.slash.injEq]
      exact eq_comm
    simp only [State.applySlash, State.covers_slash hd hcov]
    exact of_slash hop rfl

end Created

/-- what the transactions of a block create -/
theorem transactions_created {ck : OverflowChecks} {slot : UInt64} {txs : List Transaction} {s s' : State}
    (hslot : reachesUnstake slot txs s = true → slot.toNat + 64 < 2 ^ 64)
    (h : OpRun ck s (txs.map fun tx => .tx tx slot) s') : Created slot (txs.map fun tx => .tx tx slot) s s' := by
  induction txs generalizing s with
  | nil =>
    cases h
    exact .nil slot _
  | cons tx txs ih =>
    rw [List.map_cons] at h ⊢
    cases h with
    | cons hd tl =>
      cases hd with
      | tx hv happ =>
        cases State.applyTx_eq happ
        have hcov := ((s.isValidTx_iff tx).1 hv).1
        rcases reachesUnstake_cons slot txs hv with ⟨-, hreach⟩ | ⟨hnot, hsame⟩
        · have hbound := hslot hreach
          exact (Created.opEffect hcov fun _ _ => hbound).append (ih (fun _ => hbound) tl)
        · exact (Created.opEffect hcov fun a hd => absurd hd (hnot a)).append (ih (fun h => hslot (hsame.trans h)) tl)

theorem slashProofs_created {ck : OverflowChecks} {slot : UInt64} {proofs : List SlashProof} {s s' : State}
    (h : OpRun ck s (proofs.map .slash) s') : Created slot (proofs.map .slash) s s' := by
  induction proofs generalizing s with
  | nil =>
    cases h
    exact .nil slot _
  | cons proof proofs ih =>
    rw [List.map_cons] at h ⊢
    cases h with
    | cons hd tl =>
      cases hd with
      | slash happ =>
        cases (State.applySlash_ok_iff.1 happ).2
        have hop : ∀ p, (LedgerOp.slash proof).Slashes p ↔ p = proof := fun p => eq_comm
        exact (Created.of_slash hop rfl).append (ih tl)

theorem accepted_created {ck : OverflowChecks} {parent b : Block} {s s' : State} (ht : s.total < 2 ^ 64)
    (h : Accepted ck parent s b s') (hrange : InRange parent s b) : Created b.slot b.ops s s' := by
  obtain ⟨expected, hexp, hval⟩ := h.validator
  rw [getExpectedValidator_congr ck .release ht] at hexp
  obtain ⟨s₁, htxs, hslashes⟩ := h.ops.split
  have hslot := (hrange h.valid).2 ⟨h.height_eq, h.slot, expected, hexp, hval⟩
  exact (transactions_created hslot htxs).append (slashProofs_created hslashes)

/-! ## Out of range -/

/-- room for what `n` transactions add to the maps -/
structure Room (s : State) (n : ℕ) : Prop where
  balances : s.balances.len + 2 * n < 2 ^ 64
  nonces : s.nonces.len + n < 2 ^ 64
  stakes : s.stakes.len + n < 2 ^ 64

omit [Crypto] in
theorem len_bump_le (m : BTreeMap PublicKeyBytes UInt64) (k : PublicKeyBytes) (x : UInt64) :
    (State.bump m k x).len ≤ m.len + 1 := BTreeMap.len_insert_le m k _

omit [Crypto] in
theorem len_drop_le (m : BTreeMap PublicKeyBytes UInt64) (k : PublicKeyBytes) (x : UInt64) :
    (State.drop m k x).len ≤ m.len + 1 := BTreeMap.len_insert_le m k _

/-- what is not an unstake does its effect in a release build -/
theorem applyTx_release (slot : UInt64) {s : State} {tx : Transaction} {n : ℕ} (hroom : Room s (n + 1))
    (hnot : ∀ a, tx.data ≠ .unstake a) (hcov : s.covers tx = true) :
    s.applyTx .release tx slot = .ok (s.effect tx slot) ∧ Room (s.effect tx slot) n := by
  have hb := hroom.balances
  have hn := hroom.nonces
  have hs := hroom.stakes
  have hnonce := len_bump_le s.nonces (verifyingKeyToBytes tx.sender) 1
  unfold State.applyTx State.effect
  cases hd : tx.data with
  | transfer r a =>
    dsimp only
    have hdrop := len_drop_le s.balances (verifyingKeyToBytes tx.sender) a
    have hbump := len_bump_le (State.drop s.balances (verifyingKeyToBytes tx.sender) a) (verifyingKeyToBytes r) a
    rw [upsert_release_sub .balance (by omega), ok_bind, upsert_release_add .balance (by omega), ok_bind,
      upsert_release_add .nonce (by omega), ok_bind]
    exact ⟨rfl, by dsimp only; omega, by dsimp only; omega, by dsimp only; omega⟩
  | stake a =>
    dsimp only
    have hdrop := len_drop_le s.balances (verifyingKeyToBytes tx.sender) a
    have hbump := len_bump_le s.stakes (verifyingKeyToBytes tx.sender) a
    rw [upsert_release_sub .balance (by omega), ok_bind, upsert_release_add .stake (by omega), ok_bind,
      upsert_release_add .nonce (by omega), ok_bind]
    exact ⟨rfl, by dsimp only; omega, by dsimp only; omega, by dsimp only; omega⟩
  | unstake a => exact absurd hd (hnot a)
  | slash proof =>
    have hremove := BTreeMap.len_remove_le s.stakes (verifyingKeyToBytes proof.validator)
    simp only [State.applySlash, State.covers_slash hd hcov]
    rw [upsert_release_add .nonce (by omega), ok_bind]
    exact ⟨rfl, by dsimp only; omega, by dsimp only; omega, by dsimp only; omega⟩

/-- an unstake at a slot without unlock slot traps in a debug build -/
theorem applyTx_unstake {s : State} {tx : Transaction} {slot a : UInt64} (hroom : s.stakes.len + 1 < 2 ^ 64)
    (hd : tx.data = .unstake a) (hcov : s.covers tx = true) (hslot : 2 ^ 64 ≤ slot.toNat + 64) :
    s.applyTx .debug tx slot = .error (.overflow .unlockSlot) := by
  have hle := (State.covers_le hcov).2.2 a hd
  have htrap : addU64 .debug .unlockSlot slot (unstakeLockEpochs * epochLength) = .error (.overflow .unlockSlot) :=
    if_pos ⟨rfl, hslot⟩
  unfold State.applyTx
  rw [hd]
  dsimp only
  rw [debit_congr .debug .release .stake hle, upsert_release_sub .stake hroom, ok_bind, htrap]
  rfl

theorem applyTransactions_overflow {slot : UInt64} (hslot : 2 ^ 64 ≤ slot.toNat + 64) (txs : List Transaction) {s : State}
    (ht : s.total < 2 ^ 64) (hn : NoncesBelow s txs.length) (hroom : Room s txs.length)
    (hreach : reachesUnstake slot txs s = true) :
    applyTransactions .debug slot txs s = .error (.overflow .unlockSlot) := by
  induction txs generalizing s with
  | nil => exact nomatch hreach
  | cons tx txs ih =>
    have hv : s.isValidTx tx = true := (Bool.and_eq_true_iff.1 hreach).1
    have hcov := ((s.isValidTx_iff tx).1 hv).1
    rw [applyTransactions, hv]
    rcases reachesUnstake_cons slot txs hv with ⟨⟨a, hd⟩, -⟩ | ⟨hnot, hsame⟩
    · have hstakes := hroom.stakes
      rw [List.length_cons] at hstakes
      rw [applyTx_unstake (by omega) hd hcov hslot]
      rfl
    · obtain ⟨happ, hrest⟩ := applyTx_release slot hroom hnot hcov
      have htotal := total_effect ht hv happ
      rw [applyTx_congr .debug .release ht hcov (hn.mono (by rw [List.length_cons]; omega))
        (fun a hd => absurd hd (hnot a)), happ]
      exact ih htotal (hn.effect tx slot) hrest (hsame.symm.trans hreach)

/-- **Block application does not overflow.** For a state whose total value is below 2^64 and whose nonces stay there: a
block is applied without any overflow, and the requests it creates unlock after its slot, exactly if the parent is not at
the last height and an unstake is only applied at a slot whose unlock slot is a `u64`. -/
theorem never_overflows_iff (parent b : Block) (s : State) (ht : s.total < 2 ^ 64)
    (hn : ∀ k, (s.nonces.getD k 0).toNat + b.transactions.length < 2 ^ 64) (hmem : InMemory s b) :
    ((∀ site, validateAndApplyBlock .debug parent s b ≠ .error (.overflow site)) ∧
      ∀ ck s', validateAndApplyBlock ck parent s b = .ok (.ok ⟨s'⟩) → Created b.slot b.ops s s') ↔ InRange parent s b := by
  constructor
  · rintro ⟨hnever, -⟩ hvalid
    have hheight : parent.height.toNat + 1 < 2 ^ 64 := by
      by_contra hlast
      refine hnever .height ?_
      have htrap : addU64 .debug .height parent.height 1 = .error (.overflow .height) := if_pos ⟨rfl, not_lt.1 hlast⟩
      rw [validateAndApplyBlock, hvalid, htrap]
      rfl
    refine ⟨hheight, fun hchecked hreach => ?_⟩
    by_contra hlast
    refine hnever .unlockSlot ?_
    obtain ⟨hh, hs, expected, hexp, hval⟩ := hchecked
    have hroom : Room s b.transactions.length := by
      obtain ⟨h₁, h₂, h₃, h₄⟩ := hmem
      unfold publicKeySize at h₁ h₂ h₃ h₄
      exact ⟨by omega, by omega, by omega⟩
    have hadd : addU64 .debug .height parent.height 1 = .ok (parent.height + 1) := addU64_of_lt .debug .height hheight
    have hany : (expected.any fun v => decide (b.validator ≠ v)) = false := by
      cases expected with
      | none => rfl
      | some v => simpa using hval v rfl
    rw [validateAndApplyBlock, hvalid, hadd, getExpectedValidator_congr .debug .release ht, hexp,
      applyTransactions_overflow (not_lt.1 hlast) _ ht hn hroom hreach]
    simp only [Bool.not_true, Bool.false_eq_true, if_false, hh, ne_eq, not_true_eq_false,
      if_neg (UInt64.not_le.2 hs), hany]
  · intro hrange
    refine ⟨fun site h => ?_, fun ck s' h => accepted_created ht (validate_ok_iff.1 h) hrange⟩
    -- a release build checks nothing
    have hchecked := validate_checked .release parent b s
    rw [validate_congr .debug .release ht hn hrange] at h
    rw [h] at hchecked
    cases hchecked

end Overflow

section Witness

open Sample

theorem start_nonces {n : ℕ} (h : n < 2 ^ 64) : ∀ k, (start.nonces.getD k 0).toNat + n < 2 ^ 64 := by
  intro k
  change 0 + n < 2 ^ 64
  rwa [Nat.zero_add]

theorem never_overflows_block₁ :
    (∀ site, validateAndApplyBlock .debug genesis start block₁ ≠ .error (.overflow site)) ∧
      ∀ ck s', validateAndApplyBlock ck genesis start block₁ = .ok (.ok ⟨s'⟩) → Created block₁.slot block₁.ops start s' :=
  (never_overflows_iff genesis block₁ start (by decide) (start_nonces (by decide))
    ⟨by decide, by decide, by decide, by decide⟩).2 fun _ => ⟨by decide, fun _ _ => by decide⟩

def lastHeight : Block := { genesis with height := 2 ^ 64 - 1 }

def unstakes : List Transaction := [tx (key 3) (.unstake 5) 0]

/-- an unstake in a block of the last slot -/
def lastSlot : Block :=
  child genesis (2 ^ 64 - 1) (key 3) unstakes [] (after start unstakes (2 ^ 64 - 1)).computeStateRoot

/-- a debug build traps at the height of any block on `lastHeight`, and at the unlock slot of `lastSlot`; a release build
accepts `lastSlot`, and its stake can be released from slot 63 on -/
theorem unlocks_in_the_past :
    start.total < 2 ^ 64 ∧ (∀ k, (start.nonces.getD k 0).toNat + block₁.transactions.length < 2 ^ 64) ∧
    InMemory start block₁ ∧ InMemory start lastSlot ∧
    validateAndApplyBlock .debug lastHeight start block₁ = .error (.overflow .height) ∧
    validateAndApplyBlock .debug genesis start lastSlot = .error (.overflow .unlockSlot) ∧
    ∃ s', validateAndApplyBlock .release genesis start lastSlot = .ok (.ok ⟨s'⟩) ∧
      s'.unstaking.getD (key 3) [] = [⟨5, 63⟩] ∧ ¬ Created lastSlot.slot lastSlot.ops start s' := by
  refine ⟨by decide, start_nonces (by decide), ⟨by decide, by decide, by decide, by decide⟩,
    ⟨by decide, by decide, by decide, by decide⟩, by decide +kernel, by decide +kernel,
    after start unstakes (2 ^ 64 - 1), by decide +kernel, by decide +kernel, fun h => ?_⟩
  obtain ⟨kept, created, hlist, hkept, hafter⟩ := h (key 3)
  have hnow : (after start unstakes (2 ^ 64 - 1)).unstaking.getD (key 3) [] = [⟨5, 63⟩] := by decide +kernel
  have hbefore : start.unstaking.getD (key 3) [] = [] := rfl
  have hnil : kept = [] := by
    rcases hkept with ⟨rfl, -⟩ | ⟨rfl, -⟩
    · exact hbefore
    · rfl
  rw [hnow, hnil, List.nil_append] at hlist
  have hslot := (hafter ⟨5, 63⟩ (hlist ▸ List.mem_singleton_self _)).2
  exact absurd hslot (by decide +kernel)

end Witness

end RustProof
