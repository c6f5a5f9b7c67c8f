/-
Where block application and the snapshot reader can panic: in checked arithmetic and at the limits of memory, nowhere else.

`Safe F P x` says that `x` panics only with `F` and returns only with `P`; `Safe.bind` composes it along a `do` block.

Results:
- `validate_checked`: `validate_and_apply_block` overflows only where the build checks, for every parent, state and block;
- `fromBytes_safe`: `State::from_bytes`, for every byte string.
-/
import RustProof.Core.Chain

namespace RustProof

/-- an overflow or an exhausted collection -/
def Fault.Arithmetic : Fault → Prop
  | .overflow _ | .capacity => True
  | .missingHead | .diverges => False

/-- an overflow that the build checks, or an exhausted collection -/
def Fault.Checked (ck : OverflowChecks) : Fault → Prop
  | .overflow site => ck site = true
  | .capacity => True
  | .missingHead | .diverges => False

theorem Fault.Checked.arithmetic {ck : OverflowChecks} (f : Fault) (h : f.Checked ck) : f.Arithmetic := by
  cases f with
  | overflow site => exact trivial
  | capacity => exact trivial
  | missingHead => exact h
  | diverges => exact h

theorem arithmetic_ne_missingHead (f : Fault) (h : f.Arithmetic) : f ≠ .missingHead := by
  rintro rfl
  exact h

/-- a computation that panics only with `F` and whose result satisfies `P` -/
def Safe {α : Type} (F : Fault → Prop) (P : α → Prop) : Except Fault α → Prop
  | .error f => F f
  | .ok a => P a

theorem Safe.bind {α β : Type} {F : Fault → Prop} {P : α → Prop} {Q : β → Prop} {x : Except Fault α}
    {f : α → Except Fault β} (h : Safe F P x) (h' : ∀ a, P a → x = .ok a → Safe F Q (f a)) : Safe F Q (x >>= f) := by
  cases x with
  | error fault => exact h
  | ok a => exact h' a h rfl

theorem Safe.mono {α : Type} {F G : Fault → Prop} {P : α → Prop} {x : Except Fault α} (h : Safe F P x)
    (hF : ∀ f, F f → G f) : Safe G P x := by
  cases x with
  | error fault => exact hF fault h
  | ok a => exact h

/-- panics in arithmetic only -/
abbrev PanicsInArithmetic {α : Type} (x : Except Fault α) : Prop := Safe Fault.Arithmetic (fun _ => True) x

/-- panics in checked arithmetic only -/
abbrev PanicsWhereChecked {α : Type} (ck : OverflowChecks) (x : Except Fault α) : Prop :=
  Safe (Fault.Checked ck) (fun _ => True) x

/-! ## Arithmetic and collections -/

theorem addU64_safe (ck : OverflowChecks) (site : ArithSite) (a b : UInt64) : PanicsWhereChecked ck (addU64 ck site a b) := by
  unfold addU64
  split_ifs with h
  · exact h.1
  · exact trivial

theorem subU64_safe (ck : OverflowChecks) (site : ArithSite) (a b : UInt64) : PanicsWhereChecked ck (subU64 ck site a b) := by
  unfold subU64
  split_ifs with h
  · exact h.1
  · exact trivial

theorem upsert_safe {ck : OverflowChecks} {K V : Type} [LinearOrder K] (m : BTreeMap K V) (k : K) (d : V) {f : V → Except Fault V}
    (hf : ∀ v, PanicsWhereChecked ck (f v)) : PanicsWhereChecked ck (upsert m k d f) := by
  refine (hf _).bind fun v _ _ => ?_
  split_ifs <;> exact trivial

theorem pushRequest_safe (ck : OverflowChecks) (r : UnstakeRequest) (l : List UnstakeRequest) : PanicsWhereChecked ck (pushRequest r l) := by
  unfold pushRequest
  split_ifs <;> exact trivial

variable [Crypto]

/-! ## Block application -/

theorem applyTx_safe (ck : OverflowChecks) (s : State) (tx : Transaction) (slot : UInt64) :
    PanicsWhereChecked ck (s.applyTx ck tx slot) := by
  have hadd : ∀ site x v, PanicsWhereChecked ck (addU64 ck site v x) := fun site x v => addU64_safe ck site v x
  have hsub : ∀ site x v, PanicsWhereChecked ck (subU64 ck site v x) := fun site x v => subU64_safe ck site v x
  unfold State.applyTx
  cases tx.data with
  | transfer r a =>
    exact (upsert_safe _ _ _ (hsub _ a)).bind fun _ _ _ => (upsert_safe _ _ _ (hadd _ a)).bind fun _ _ _ =>
      (upsert_safe _ _ _ (hadd _ 1)).bind fun _ _ _ => trivial
  | stake a =>
    exact (upsert_safe _ _ _ (hsub _ a)).bind fun _ _ _ => (upsert_safe _ _ _ (hadd _ a)).bind fun _ _ _ =>
      (upsert_safe _ _ _ (hadd _ 1)).bind fun _ _ _ => trivial
  | unstake a =>
    exact (upsert_safe _ _ _ (hsub _ a)).bind fun _ _ _ => (addU64_safe ck _ _ _).bind fun u _ _ =>
      (upsert_safe _ _ _ (pushRequest_safe ck ⟨a, u⟩)).bind fun _ _ _ =>
      (upsert_safe _ _ _ (hadd _ 1)).bind fun _ _ _ => trivial
  | slash proof => exact (upsert_safe _ _ _ (hadd _ 1)).bind fun _ _ _ => trivial

theorem sumStakes_safe (ck : OverflowChecks) (l : List (UInt64 × VerifyingKey)) (acc : UInt64) :
    PanicsWhereChecked ck (State.sumStakes ck acc l) := by
  induction l generalizing acc with
  | nil => exact trivial
  | cons e l ih => exact (addU64_safe ck _ _ _).bind fun acc' _ _ => ih acc'

theorem pickValidator_safe (ck : OverflowChecks) (ticket : UInt64) (l : List (UInt64 × VerifyingKey)) (acc : UInt64) :
    PanicsWhereChecked ck (State.pickValidator ck ticket acc l) := by
  induction l generalizing acc with
  | nil => exact trivial
  | cons e l ih =>
    refine (addU64_safe ck _ _ _).bind fun acc' _ _ => ?_
    split_ifs
    · exact trivial
    · exact ih acc'

theorem getExpectedValidator_safe (ck : OverflowChecks) (s : State) (height : UInt64) :
    PanicsWhereChecked ck (s.getExpectedValidator ck height) := by
  unfold State.getExpectedValidator
  split_ifs
  · exact trivial
  · refine (sumStakes_safe ck _ _).bind fun total _ _ => ?_
    split_ifs
    · exact trivial
    · exact pickValidator_safe ck _ _ _

theorem applyTransactions_safe (ck : OverflowChecks) (slot : UInt64) (txs : List Transaction) (s : State) :
    PanicsWhereChecked ck (applyTransactions ck slot txs s) := by
  induction txs generalizing s with
  | nil => exact trivial
  | cons tx txs ih =>
    rw [applyTransactions]
    split_ifs
    · exact trivial
    · have htx := applyTx_safe ck s tx slot
      cases happ : s.applyTx ck tx slot with
      | error f => rw [happ] at htx; exact htx
      | ok s' => exact ih s'

theorem validate_checked (ck : OverflowChecks) (parent b : Block) (s : State) :
    PanicsWhereChecked ck (validateAndApplyBlock ck parent s b) := by
  have hheight := addU64_safe ck .height parent.height 1
  have hexp := getExpectedValidator_safe ck s b.height
  have htxs := applyTransactions_safe ck b.slot b.transactions s
  unfold validateAndApplyBlock
  split
  · exact trivial
  split
  · rename_i f hf
    rw [hf] at hheight
    exact hheight
  split
  · exact trivial
  split
  · exact trivial
  split
  · rename_i f hf
    rw [hf] at hexp
    exact hexp
  split
  · exact trivial
  split
  · rename_i f hf
    rw [hf] at htxs
    exact htxs
  · exact trivial
  split
  · exact trivial
  split <;> exact trivial

theorem validate_safe (ck : OverflowChecks) (parent b : Block) (s : State) :
    PanicsInArithmetic (validateAndApplyBlock ck parent s b) := (validate_checked ck parent b s).mono Fault.Checked.arithmetic

/-! ## The snapshot reader -/

omit [Crypto] in
theorem readAccount_safe (bytes : List UInt8) (i : ℕ) : PanicsInArithmetic (readAccount bytes i) := by
  unfold readAccount
  split
  · exact trivial
  · split
    · exact trivial
    · split_ifs
      · exact trivial
      · split <;> exact trivial

omit [Crypto] in
theorem readAccounts_safe (bytes : List UInt8) (n : ℕ) (m : BTreeMap PublicKeyBytes (List UnstakeRequest)) (i : ℕ) :
    PanicsInArithmetic (readAccounts bytes n m i) := by
  induction n generalizing m i with
  | zero => exact trivial
  | succ n ih =>
    have hone := readAccount_safe bytes i
    rw [readAccounts]
    split
    · rename_i f hf
      rw [hf] at hone
      exact hone
    · exact trivial
    · exact ih _ _

omit [Crypto] in
theorem fromBytes_safe (bytes : List UInt8) : PanicsInArithmetic (State.fromBytes bytes) := by
  unfold State.fromBytes
  split
  · exact trivial
  · rename_i s n i hhead
    have haccounts := readAccounts_safe bytes n.toNat .empty i
    split
    · rename_i f hf
      rw [hf] at haccounts
      exact haccounts
    · exact trivial
    · exact trivial

end RustProof
