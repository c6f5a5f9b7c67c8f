/-
Drawing from a list of weighted entries.

A ticket is compared with the running sum of the weights, strictly, and the first entry whose sum exceeds it is drawn.

Results:
- `pick_mem`: a ticket below the total draws an entry of positive weight;
- `card_pick`: over one range of tickets as long as the total, each outcome is drawn as often as its entries weigh;
- `card_window`: the same for tickets taken modulo the total over any window of that length, wherever it starts.
-/
import Mathlib.Algebra.BigOperators.Group.List.Basic
import Mathlib.Data.Nat.Periodic
import Mathlib.Order.Interval.Finset.Nat

namespace RustProof.Lottery

open Finset

variable {α : Type}

def pick (ticket : ℕ) : ℕ → List (ℕ × α) → Option α
  | _, [] => none
  | cumulative, (w, a) :: rest =>
    if ticket < cumulative + w then some a else pick ticket (cumulative + w) rest

def total (l : List (ℕ × α)) : ℕ := (l.map Prod.fst).sum

/-- the weight of the entries of `a` -/
def share [DecidableEq α] (a : α) (l : List (ℕ × α)) : ℕ := (l.map fun e => if e.2 = a then e.1 else 0).sum

@[simp] theorem total_cons (e : ℕ × α) (l : List (ℕ × α)) : total (e :: l) = e.1 + total l := rfl

theorem share_cons [DecidableEq α] (a : α) (e : ℕ × α) (l : List (ℕ × α)) :
    share a (e :: l) = (if e.2 = a then e.1 else 0) + share a l := rfl

theorem pick_mem {ticket : ℕ} {l : List (ℕ × α)} {cumulative : ℕ} (hlo : cumulative ≤ ticket)
    (hhi : ticket < cumulative + total l) : ∃ e ∈ l, 0 < e.1 ∧ pick ticket cumulative l = some e.2 := by
  induction l generalizing cumulative with
  | nil => simp [total] at hhi; omega
  | cons e l ih =>
    rw [total_cons] at hhi
    by_cases h : ticket < cumulative + e.1
    · exact ⟨e, List.mem_cons_self, by omega, if_pos h⟩
    · obtain ⟨e', he', hpos, hp⟩ := ih (show cumulative + e.1 ≤ ticket by omega) (by omega)
      exact ⟨e', List.mem_cons_of_mem _ he', hpos, (if_neg h).trans hp⟩

/-- entries of no weight can go: they are never drawn and the running sum does not see them -/
theorem pick_cons_zero {ticket cumulative : ℕ} (hlo : cumulative ≤ ticket) (a : α) (l : List (ℕ × α)) :
    pick ticket cumulative ((0, a) :: l) = pick ticket cumulative l := if_neg (by omega)

variable [DecidableEq α]

theorem card_pick (a : α) (cumulative : ℕ) (l : List (ℕ × α)) :
    #{t ∈ Ico cumulative (cumulative + total l) | pick t cumulative l = some a} = share a l := by
  induction l generalizing cumulative with
  | nil => simp [total, share]
  | cons e l ih =>
    -- the first `e.1` tickets draw `e`, the others draw from the rest
    have hsplit : Ico cumulative (cumulative + total (e :: l)) =
        Ico cumulative (cumulative + e.1) ∪ Ico (cumulative + e.1) (cumulative + e.1 + total l) := by
      rw [Ico_union_Ico_eq_Ico (by omega) (by omega), total_cons, Nat.add_assoc]
    have hhead : #{t ∈ Ico cumulative (cumulative + e.1) | pick t cumulative (e :: l) = some a} =
        if e.2 = a then e.1 else 0 := by
      have hfirst : ∀ t ∈ Ico cumulative (cumulative + e.1), pick t cumulative (e :: l) = some e.2 := fun t ht =>
        if_pos (mem_Ico.1 ht).2
      split_ifs with ha
      · rw [filter_true_of_mem fun t ht => by rw [hfirst t ht, ha], Nat.card_Ico]
        omega
      · rw [filter_false_of_mem fun t ht h => ha (Option.some.inj ((hfirst t ht).symm.trans h)), card_empty]
    have hrest : {t ∈ Ico (cumulative + e.1) (cumulative + e.1 + total l) | pick t cumulative (e :: l) = some a} =
        {t ∈ Ico (cumulative + e.1) (cumulative + e.1 + total l) | pick t (cumulative + e.1) l = some a} :=
      filter_congr fun t ht => by
        have hge := (mem_Ico.1 ht).1
        rw [show pick t cumulative (e :: l) = pick t (cumulative + e.1) l from if_neg (by omega)]
    rw [hsplit, filter_union, card_union_of_disjoint, hhead, hrest, ih, share_cons]
    exact disjoint_filter_filter (Ico_disjoint_Ico_consecutive _ _ _)

/-- a window may start in the middle of a cycle -/
theorem card_window (a : α) (l : List (ℕ × α)) (h : ℕ) :
    #{k ∈ Ico h (h + total l) | pick (k % total l) 0 l = some a} = share a l := by
  have hper : Function.Periodic (fun k => pick (k % total l) 0 l = some a) (total l) := fun k => by
    simp only [Nat.add_mod_right]
  rw [Nat.filter_Ico_card_eq_of_periodic h (total l) _ hper, Nat.count_eq_card_filter_range, ← card_pick a 0 l,
    Nat.zero_add, range_eq_Ico]
  exact congrArg card (filter_congr fun t ht => by rw [Nat.mod_eq_of_lt (mem_Ico.1 ht).2])

end RustProof.Lottery
