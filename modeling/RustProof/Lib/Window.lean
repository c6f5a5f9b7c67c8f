/-
Lists numbered without a gap, and linked lists of records that name their predecessor.

`Consecutive key a l`: the keys of `l` are `a`, `a + 1`, …; a window of keys is then a piece of the list
(`Consecutive.filter`). `Linked prev name x l`: every element names the one before it, the first one names `x`; `tip` is
where such a list ends.
-/
import Mathlib.Data.List.Basic
import Mathlib.Data.List.Range

namespace RustProof

variable {α β : Type}

/-! ## Consecutive keys -/

def Consecutive (key : α → ℕ) (a : ℕ) (l : List α) : Prop := l.map key = List.range' a l.length

section Consecutive

variable {key : α → ℕ} {a : ℕ}

theorem Consecutive.nil : Consecutive key a [] := rfl

theorem consecutive_cons {x : α} {l : List α} :
    Consecutive key a (x :: l) ↔ key x = a ∧ Consecutive key (a + 1) l := by
  unfold Consecutive
  rw [List.map_cons, List.length_cons, List.range'_succ, List.cons.injEq]

theorem Consecutive.append {l l' : List α} (h : Consecutive key a (l ++ l')) :
    Consecutive key a l ∧ Consecutive key (a + l.length) l' := by
  induction l generalizing a with
  | nil => exact ⟨.nil, h⟩
  | cons x l ih =>
    obtain ⟨hx, hrest⟩ := consecutive_cons.1 h
    obtain ⟨h1, h2⟩ := ih hrest
    refine ⟨consecutive_cons.2 ⟨hx, h1⟩, ?_⟩
    rw [List.length_cons, Nat.add_comm l.length 1, ← Nat.add_assoc]
    exact h2

theorem Consecutive.snoc {x : α} {l : List α} (h : Consecutive key a l) (hx : key x = a + l.length) :
    Consecutive key a (l ++ [x]) := by
  unfold Consecutive at h ⊢
  rw [List.map_append, h, List.length_append, List.length_singleton, List.range'_concat]
  simp [hx]

theorem Consecutive.take {l : List α} (h : Consecutive key a l) (n : ℕ) : Consecutive key a (l.take n) := by
  rw [← List.take_append_drop n l] at h
  exact h.append.1

theorem Consecutive.drop {l : List α} (h : Consecutive key a l) {n : ℕ} (hn : n ≤ l.length) :
    Consecutive key (a + n) (l.drop n) := by
  rw [← List.take_append_drop n l] at h
  have hdrop := h.append.2
  rwa [List.length_take, Nat.min_eq_left hn] at hdrop

theorem Consecutive.mem {l : List α} (h : Consecutive key a l) {x : α} (hx : x ∈ l) :
    a ≤ key x ∧ key x < a + l.length := by
  have hmem : key x ∈ List.range' a l.length := h ▸ List.mem_map_of_mem hx
  exact List.mem_range'_1.1 hmem

theorem Consecutive.getLast? {l : List α} (h : Consecutive key a l) {x : α} (hx : l.getLast? = some x) :
    key x + 1 = a + l.length := by
  obtain ⟨init, rfl⟩ := List.getLast?_eq_some_iff.1 hx
  have hlast := (consecutive_cons.1 h.append.2).1
  rw [List.length_append, List.length_singleton, hlast, Nat.add_assoc]

/-- a window of keys is a piece of the list -/
theorem Consecutive.filter {x y : ℕ} {l : List α} (h : Consecutive key a l) (hx : a ≤ x) :
    l.filter (fun b => decide (x ≤ key b ∧ key b ≤ y)) = (l.drop (x - a)).take (y + 1 - x) := by
  induction l generalizing a x with
  | nil => simp
  | cons b l ih =>
    obtain ⟨hb, hrest⟩ := consecutive_cons.1 h
    by_cases hin : x = a
    · subst hin
      rw [Nat.sub_self, List.drop_zero]
      by_cases hy : x ≤ y
      · -- the first element is in the window, the others are those from the next key on
        have htail : l.filter (fun c => decide (x ≤ key c ∧ key c ≤ y)) =
            l.filter (fun c => decide (x + 1 ≤ key c ∧ key c ≤ y)) := by
          refine List.filter_congr fun c hc => ?_
          have := (hrest.mem hc).1
          simp only [decide_eq_decide]
          omega
        rw [List.filter_cons_of_pos (by simp [hb, hy]), htail, ih hrest le_rfl, Nat.sub_self, List.drop_zero,
          show y + 1 - x = (y + 1 - (x + 1)) + 1 by omega, List.take_succ_cons]
      · rw [show y + 1 - x = 0 by omega, List.take_zero, List.filter_eq_nil_iff]
        intro c _
        simp only [decide_eq_true_eq]
        omega
    · rw [List.filter_cons_of_neg (by simp only [decide_eq_true_eq]; omega), ih hrest (by omega),
        show x - a = (x - (a + 1)) + 1 by omega, List.drop_succ_cons]

end Consecutive

/-- a piece of a list is a piece of its own length -/
theorem take_length_take (l : List α) (n : ℕ) : l.take (l.take n).length = l.take n := by
  rw [List.length_take]
  rcases Nat.le_total n l.length with h | h
  · rw [Nat.min_eq_left h]
  · rw [Nat.min_eq_right h, List.take_length, List.take_of_length_le h]

/-! ## Linked records -/

/-- every element names its predecessor, the first one names `x` -/
def Linked (prev name : α → β) : β → List α → Prop
  | _, [] => True
  | x, b :: l => prev b = x ∧ Linked prev name (name b) l

/-- where a linked list that begins behind `x` ends -/
def tip (name : α → β) (x : β) : List α → β
  | [] => x
  | b :: l => tip name (name b) l

section Linked

variable {prev name : α → β} {x : β}

theorem tip_append (l l' : List α) : tip name x (l ++ l') = tip name (tip name x l) l' := by
  induction l generalizing x with
  | nil => rfl
  | cons b l ih => exact ih

theorem tip_eq_getLastD (b : α) (l : List α) : tip name (name b) l = name (l.getLastD b) := by
  induction l generalizing b with
  | nil => rfl
  | cons c l ih =>
    rw [List.getLastD_cons]
    exact ih c

theorem linked_append {l l' : List α} :
    Linked prev name x (l ++ l') ↔ Linked prev name x l ∧ Linked prev name (tip name x l) l' := by
  induction l generalizing x with
  | nil => exact ⟨fun hl => ⟨trivial, hl⟩, fun hl => hl.2⟩
  | cons b l ih => simp only [List.cons_append, Linked, tip, ih, and_assoc]

/-- behind an element with the name `x` a linked list is a chain of neighbours -/
theorem Linked.isChain {a : α} {l : List α} (h : Linked prev name (name a) l) :
    (a :: l).IsChain fun a b => prev b = name a := by
  induction l generalizing a with
  | nil => exact List.isChain_singleton _
  | cons b l ih =>
    obtain ⟨hb, hrest⟩ := h
    exact List.isChain_cons_cons.2 ⟨hb, ih hrest⟩

end Linked

end RustProof
