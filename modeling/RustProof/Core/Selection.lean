/-
Who forges the next block, over all heights (`rp-core/src/state.rs`, `get_expected_validator`).

The election is a drawing from the entries whose keys decode, in key order, with the height modulo their total as the
ticket (`getExpectedValidator_eq`): as long as that total is below 2^64, no sum of it overflows, in any build.

Results:
- `stake_proportional_selection`: every height elects a validator with stake, and in every window of as many heights as
  the total stake, wherever it starts, each validator is elected exactly as often as it has stake;
- `getExpectedValidator_remove`: an entry that does not decode, or has no stake, changes no election.
-/
import RustProof.Core.Conservation
import RustProof.Lib.Lottery

namespace RustProof

open Lottery

section Election

variable [Crypto]

/-- the entries of the election, their stakes as numbers -/
def lotsOf (entries : List (PublicKeyBytes × UInt64)) : List (ℕ × VerifyingKey) :=
  entries.filterMap fun e => (verifyingKeyFromBytes e.1).map fun key => (e.2.toNat, key)

def State.lots (s : State) : List (ℕ × VerifyingKey) := lotsOf s.stakes.entries

/-- the stake of the entries whose key bytes decode to `v` -/
def State.stakeOf (s : State) (v : VerifyingKey) : ℕ :=
  (s.stakes.entries.map fun e => if verifyingKeyFromBytes e.1 = some v then e.2.toNat else 0).sum

theorem lotsOf_cons_none {e : PublicKeyBytes × UInt64} (h : verifyingKeyFromBytes e.1 = none)
    (l : List (PublicKeyBytes × UInt64)) : lotsOf (e :: l) = lotsOf l := by
  simp [lotsOf, h]

theorem lotsOf_cons_some {e : PublicKeyBytes × UInt64} {key : VerifyingKey} (h : verifyingKeyFromBytes e.1 = some key)
    (l : List (PublicKeyBytes × UInt64)) : lotsOf (e :: l) = (e.2.toNat, key) :: lotsOf l := by
  simp [lotsOf, h]

theorem State.lots_eq (s : State) : s.lots = s.validStakes.map fun e => (e.1.toNat, e.2) := by
  unfold State.lots lotsOf State.validStakes
  rw [List.map_filterMap]
  simp only [Option.map_map, Function.comp_def]

theorem total_lots (s : State) : total s.lots = stakeSum s.validStakes := by
  rw [State.lots_eq]
  unfold total stakeSum
  rw [List.map_map]
  rfl

theorem share_lots (s : State) (v : VerifyingKey) : share v s.lots = s.stakeOf v := by
  unfold State.lots State.stakeOf
  induction s.stakes.entries with
  | nil => rfl
  | cons e l ih =>
    cases hk : verifyingKeyFromBytes e.1 with
    | none => simp [lotsOf_cons_none hk, hk, ih]
    | some key => simp [lotsOf_cons_some hk, share_cons, hk, ih]

/-- where one encoding only decodes to `v`, its stake is the entry of that encoding -/
theorem State.stakeOf_eq_getD (s : State) {v : VerifyingKey}
    (hcanonical : ∀ bytes, verifyingKeyFromBytes bytes = some v → bytes = verifyingKeyToBytes v) :
    s.stakeOf v = (s.stakes.getD (verifyingKeyToBytes v) 0).toNat := by
  have hiff : ∀ bytes, verifyingKeyFromBytes bytes = some v ↔ bytes = verifyingKeyToBytes v := by
    intro bytes
    exact ⟨hcanonical bytes, fun h => h ▸ Crypto.key_round_trip v⟩
  have hsum : ∀ l : List (PublicKeyBytes × UInt64), Assoc.Sorted l →
      (l.map fun e => if e.1 = verifyingKeyToBytes v then e.2.toNat else 0).sum =
        ((Assoc.find (verifyingKeyToBytes v) l).getD 0).toNat := by
    intro l hl
    induction l with
    | nil => rfl
    | cons e l ih =>
      obtain ⟨hlt, hrest⟩ := List.pairwise_cons.1 hl
      have htail := ih hrest
      by_cases he : e.1 = verifyingKeyToBytes v
      · -- the keys after it are greater
        rw [Assoc.find_eq_none_of_lt fun e' he' => he ▸ hlt e' he'] at htail
        simp only [List.map_cons, List.sum_cons, htail, Assoc.find, if_pos he, Option.getD_some, Option.getD_none]
        simp
      · simp only [List.map_cons, List.sum_cons, htail, Assoc.find, if_neg he, Nat.zero_add]
  unfold State.stakeOf BTreeMap.getD BTreeMap.get?
  simp only [hiff]
  exact hsum _ s.stakes.sorted

/-! ## The election is a drawing -/

theorem sumStakes_eq (ck : OverflowChecks) (l : List (UInt64 × VerifyingKey)) (acc : UInt64)
    (h : acc.toNat + stakeSum l < 2 ^ 64) :
    ∃ sum, State.sumStakes ck acc l = .ok sum ∧ sum.toNat = acc.toNat + stakeSum l := by
  induction l generalizing acc with
  | nil => exact ⟨acc, rfl, rfl⟩
  | cons e l ih =>
    simp only [stakeSum, List.map_cons, List.sum_cons] at h
    have hlt : acc.toNat + e.1.toNat < 2 ^ 64 := by omega
    obtain ⟨sum, hs, hsum⟩ := ih (acc + e.1) (by rw [toNat_add_of_lt hlt]; simp only [stakeSum]; omega)
    refine ⟨sum, ?_, ?_⟩
    · simp only [State.sumStakes, addU64_of_lt ck .stakeSum hlt, bind, Except.bind, hs]
    · rw [hsum, toNat_add_of_lt hlt]
      simp only [stakeSum, List.map_cons, List.sum_cons]
      omega

theorem pickValidator_eq (ck : OverflowChecks) (ticket : UInt64) (l : List (UInt64 × VerifyingKey)) (acc : UInt64)
    (h : acc.toNat + stakeSum l < 2 ^ 64) :
    State.pickValidator ck ticket acc l = .ok (pick ticket.toNat acc.toNat (l.map fun e => (e.1.toNat, e.2))) := by
  induction l generalizing acc with
  | nil => rfl
  | cons e l ih =>
    simp only [stakeSum, List.map_cons, List.sum_cons] at h
    have hlt : acc.toNat + e.1.toNat < 2 ^ 64 := by omega
    have htail := ih (acc + e.1) (by rw [toNat_add_of_lt hlt]; simp only [stakeSum]; omega)
    simp only [State.pickValidator, addU64_of_lt ck .stakeSum hlt, bind, Except.bind, List.map_cons, pick, htail,
      UInt64.lt_iff_toNat_lt, toNat_add_of_lt hlt]
    split_ifs <;> rfl

theorem State.stakes_ne_empty {s : State} (hpos : 0 < stakeSum s.validStakes) : s.stakes.isEmpty = false := by
  by_contra he
  rw [Bool.not_eq_false, BTreeMap.isEmpty_iff] at he
  simp [State.validStakes, he, BTreeMap.empty, stakeSum] at hpos

theorem getExpectedValidator_eq (ck : OverflowChecks) {s : State} (hpos : 0 < stakeSum s.validStakes)
    (hlt : stakeSum s.validStakes < 2 ^ 64) (height : UInt64) :
    s.getExpectedValidator ck height = .ok (pick (height.toNat % total s.lots) 0 s.lots) := by
  have hzero : (0 : UInt64).toNat + stakeSum s.validStakes < 2 ^ 64 := by rw [UInt64.toNat_zero, Nat.zero_add]; exact hlt
  obtain ⟨sum, hs, hsum⟩ := sumStakes_eq ck s.validStakes 0 hzero
  rw [UInt64.toNat_zero, Nat.zero_add] at hsum
  have hne : sum ≠ 0 := fun h => by rw [h, UInt64.toNat_zero] at hsum; omega
  unfold State.getExpectedValidator
  rw [State.stakes_ne_empty hpos, hs]
  simp only [Bool.false_eq_true, if_false, bind, Except.bind, hne]
  rw [pickValidator_eq ck _ _ _ hzero, UInt64.toNat_mod, hsum, total_lots, State.lots_eq]
  rfl

/-! ## Entries that do not count -/

theorem lots_erase {bytes : PublicKeyBytes} {l : List (PublicKeyBytes × UInt64)}
    (hdead : ∀ e ∈ l, e.1 = bytes → verifyingKeyFromBytes e.1 = none ∨ e.2 = 0) :
    total (lotsOf (Assoc.erase bytes l)) = total (lotsOf l) ∧
      ∀ ticket cumulative, cumulative ≤ ticket →
        pick ticket cumulative (lotsOf (Assoc.erase bytes l)) = pick ticket cumulative (lotsOf l) := by
  induction l with
  | nil => exact ⟨rfl, fun _ _ _ => rfl⟩
  | cons e l ih =>
    obtain ⟨htotal, hpick⟩ := ih fun e' he' => hdead e' (List.mem_cons_of_mem _ he')
    by_cases he : e.1 = bytes
    · simp only [Assoc.erase, if_pos he]
      cases hk : verifyingKeyFromBytes e.1 with
      | none => simp [lotsOf_cons_none hk]
      | some key =>
        have hzero : e.2.toNat = 0 := by
          have h0 := (hdead e List.mem_cons_self he).resolve_left (by simp [hk])
          rw [h0, UInt64.toNat_zero]
        rw [lotsOf_cons_some hk, hzero]
        exact ⟨(Nat.zero_add _).symm, fun ticket cumulative hle => (pick_cons_zero hle key _).symm⟩
    · simp only [Assoc.erase, if_neg he]
      cases hk : verifyingKeyFromBytes e.1 with
      | none => simpa [lotsOf_cons_none hk] using ⟨htotal, hpick⟩
      | some key =>
        simp only [lotsOf_cons_some hk, total_cons, htotal, pick, true_and]
        intro ticket cumulative hle
        split_ifs with h
        · rfl
        · exact hpick ticket _ (by omega)

/-- **An entry that does not decode, or has no stake, changes no election.** -/
theorem getExpectedValidator_remove (ck : OverflowChecks) {s : State} (hpos : 0 < stakeSum s.validStakes)
    (hlt : stakeSum s.validStakes < 2 ^ 64) {bytes : PublicKeyBytes}
    (hdead : verifyingKeyFromBytes bytes = none ∨ s.stakes.get? bytes = some 0) (height : UInt64) :
    { s with stakes := s.stakes.remove bytes : State }.getExpectedValidator ck height =
      s.getExpectedValidator ck height := by
  have hentries : ∀ e ∈ s.stakes.entries, e.1 = bytes → verifyingKeyFromBytes e.1 = none ∨ e.2 = 0 := by
    intro e he hb
    have hget := (s.stakes.mem_entries_iff e.1 e.2).1 he
    rw [hb] at hget ⊢
    exact hdead.imp_right fun h0 => Option.some.inj (hget.symm.trans h0)
  obtain ⟨htotal, hpick⟩ := lots_erase hentries
  have hsum : stakeSum { s with stakes := s.stakes.remove bytes : State }.validStakes = stakeSum s.validStakes := by
    rw [← total_lots, ← total_lots]
    exact htotal
  rw [getExpectedValidator_eq ck hpos hlt, getExpectedValidator_eq ck (hsum ▸ hpos) (hsum ▸ hlt), total_lots, total_lots,
    hsum]
  exact congrArg Except.ok (hpick _ 0 (Nat.zero_le _))

/-! ## Every share -/

theorem State.mem_lots {s : State} {e : ℕ × VerifyingKey} (he : e ∈ s.lots) :
    ∃ bytes stake, s.stakes.get? bytes = some stake ∧ verifyingKeyFromBytes bytes = some e.2 ∧
      UInt64.toNat stake = e.1 := by
  obtain ⟨⟨bytes, stake⟩, hmem, hsome⟩ := List.mem_filterMap.1 he
  obtain ⟨key, hkey, heq⟩ := Option.map_eq_some_iff.1 hsome
  cases heq
  exact ⟨bytes, stake, (s.stakes.mem_entries_iff bytes stake).1 hmem, hkey, rfl⟩

/-- **Validators are elected in proportion to their stake.** -/
theorem stake_proportional_selection (ck : OverflowChecks) (s : State) (hpos : 0 < stakeSum s.validStakes)
    (hlt : stakeSum s.validStakes < 2 ^ 64) :
    (∀ height, ∃ v bytes stake, s.getExpectedValidator ck height = .ok (some v) ∧
      s.stakes.get? bytes = some stake ∧ verifyingKeyFromBytes bytes = some v ∧ 0 < stake) ∧
    (∀ h : ℕ, h + stakeSum s.validStakes ≤ 2 ^ 64 → ∀ v,
      Finset.card {k ∈ Finset.Ico h (h + stakeSum s.validStakes) |
        s.getExpectedValidator ck (UInt64.ofNat k) = .ok (some v)} = s.stakeOf v) ∧
    ∀ bytes, verifyingKeyFromBytes bytes = none ∨ s.stakes.get? bytes = some 0 → ∀ height,
      { s with stakes := s.stakes.remove bytes : State }.getExpectedValidator ck height =
        s.getExpectedValidator ck height := by
  refine ⟨?_, ?_, fun bytes hdead => getExpectedValidator_remove ck hpos hlt hdead⟩
  · intro height
    have hticket : height.toNat % total s.lots < 0 + total s.lots := by
      rw [Nat.zero_add]
      exact Nat.mod_lt _ (total_lots s ▸ hpos)
    obtain ⟨e, he, hw, hp⟩ := pick_mem (Nat.zero_le _) hticket
    obtain ⟨bytes, stake, hget, hkey, hstake⟩ := State.mem_lots he
    refine ⟨e.2, bytes, stake, ?_, hget, hkey, ?_⟩
    · rw [getExpectedValidator_eq ck hpos hlt, hp]
    · rw [UInt64.lt_iff_toNat_lt, hstake]
      exact hw
  · intro h hend v
    rw [← share_lots, ← card_window v s.lots h, total_lots]
    refine congrArg Finset.card (Finset.filter_congr fun k hk => ?_)
    have hk64 : k < 2 ^ 64 := by
      have := (Finset.mem_Ico.1 hk).2
      omega
    rw [getExpectedValidator_eq ck hpos hlt, UInt64.toNat_ofNat_of_lt' hk64, total_lots]
    simp

end Election

section Witness

open Sample

/-- `key 2` holds three parts of five, `key 4` two, `key 3` none -/
def Sample.staked : State :=
  { State.new with stakes := ((BTreeMap.empty.insert (key 2) 3).insert (key 3) 0).insert (key 4) 2 }

theorem stake_proportional_selection_staked :
    Sample.staked.stakeOf (key 2) = 3 ∧
    Finset.card {k ∈ Finset.Ico 8 (8 + stakeSum Sample.staked.validStakes) |
      Sample.staked.getExpectedValidator .debug (UInt64.ofNat k) = .ok (some (key 2))} = Sample.staked.stakeOf (key 2) :=
  ⟨by decide +kernel,
    (stake_proportional_selection .debug Sample.staked (by decide +kernel) (by decide +kernel)).2.1 8
      (by decide +kernel) (key 2)⟩

end Witness

end RustProof
