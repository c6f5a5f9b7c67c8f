/-
Calls over a link that may break off: one side asks, the other takes the question in and answers it, and the answer comes
back. The asking side waits for the answer before it asks again. Any step may be the last one.

A step adds to one of four lists. None of them says that a question taken in or an answer that came back is the right one;
that is what the places in the lists are for: a step takes the next one.

Results:
- `Matched.run`: along every run questions are taken in, in order, without one left out or invented, and the same for the
  answers on their way back; and every answer fits the question at its place;
- `Matched.call`: so what came back answers the question that was asked.
-/
import Mathlib.Data.List.Basic
import Mathlib.Logic.Relation

namespace RustProof

/-- the calls from one side to the other, so far -/
structure Calls (Q A : Type) where
  asked : List Q
  delivered : List Q
  answered : List A
  returned : List A

namespace Calls

variable {Q A : Type} {Fits : Q → A → Prop} {c c' : Calls Q A}

def new : Calls Q A := ⟨[], [], [], []⟩

inductive Step (Fits : Q → A → Prop) (c : Calls Q A) : Calls Q A → Prop
  | ask (q : Q) (idle : c.returned.length = c.asked.length) : Step Fits c { c with asked := c.asked ++ [q] }
  | deliver {q : Q} (next : c.asked[c.delivered.length]? = some q) :
      Step Fits c { c with delivered := c.delivered ++ [q] }
  | answer {q : Q} {a : A} (next : c.delivered[c.answered.length]? = some q) (fits : Fits q a) :
      Step Fits c { c with answered := c.answered ++ [a] }
  | ret {a : A} (next : c.answered[c.returned.length]? = some a) : Step Fits c { c with returned := c.returned ++ [a] }

structure Matched (Fits : Q → A → Prop) (c : Calls Q A) : Prop where
  delivered : c.delivered <+: c.asked
  returned : c.returned <+: c.answered
  answered : c.answered.length ≤ c.delivered.length
  fits : ∀ (i : ℕ) q a, c.delivered[i]? = some q → c.answered[i]? = some a → Fits q a
  /-- at most one question is open -/
  one : c.asked.length ≤ c.returned.length + 1

theorem matched_new : (new : Calls Q A).Matched Fits where
  delivered := List.prefix_rfl
  returned := List.prefix_rfl
  answered := Nat.le_refl 0
  fits i q a hq := by
    rw [new, List.getElem?_nil] at hq
    cases hq
  one := Nat.zero_le _

/-- a list that is taken over one element at a time stays a prefix -/
theorem prefix_concat {α : Type} {l l' : List α} {x : α} (h : l <+: l') (hx : l'[l.length]? = some x) : l ++ [x] <+: l' := by
  have hl := List.prefix_iff_eq_take.1 h
  rw [List.prefix_iff_eq_take, List.length_append, List.length_singleton, List.take_add_one, hx, ← hl]
  rfl

theorem getElem?_concat_eq_some {α : Type} {l : List α} {x y : α} {i : ℕ} (h : (l ++ [x])[i]? = some y) :
    l[i]? = some y ∨ i = l.length ∧ y = x := by
  rcases Nat.lt_trichotomy i l.length with hlt | rfl | hgt
  · rw [List.getElem?_append_left hlt] at h
    exact .inl h
  · rw [List.getElem?_concat_length] at h
    exact .inr ⟨rfl, (Option.some.inj h).symm⟩
  · rw [List.getElem?_eq_none (by rw [List.length_append, List.length_singleton]; omega)] at h
    cases h

theorem Matched.step (hc : c.Matched Fits) (h : Step Fits c c') : c'.Matched Fits := by
  have hanswered := hc.answered
  have hone := hc.one
  cases h with
  | ask q idle =>
    have hlen : (c.asked ++ [q]).length = c.returned.length + 1 := by rw [List.length_append, List.length_singleton, idle]
    exact ⟨hc.delivered.trans (List.prefix_append _ _), hc.returned, hanswered, hc.fits, Nat.le_of_eq hlen⟩
  | @deliver q next =>
    refine ⟨prefix_concat hc.delivered next, hc.returned, ?_, fun i q' a hq ha => ?_, hone⟩
    · rw [List.length_append, List.length_singleton]
      exact Nat.le_succ_of_le hanswered
    · rcases getElem?_concat_eq_some hq with hq | ⟨rfl, -⟩
      · exact hc.fits i q' a hq ha
      · -- a question taken in just now has no answer
        rw [List.getElem?_eq_none hanswered] at ha
        cases ha
  | @answer q a next fits =>
    have hlt : c.answered.length < c.delivered.length := (List.getElem?_eq_some_iff.1 next).1
    refine ⟨hc.delivered, hc.returned.trans (List.prefix_append _ _), ?_, fun i q' a' hq ha => ?_, hone⟩
    · rw [List.length_append, List.length_singleton]
      exact hlt
    · rcases getElem?_concat_eq_some ha with ha | ⟨rfl, rfl⟩
      · exact hc.fits i q' a' hq ha
      · rw [Option.some.inj (hq.symm.trans next)]
        exact fits
  | @ret a next =>
    refine ⟨hc.delivered, prefix_concat hc.returned next, hanswered, hc.fits, ?_⟩
    rw [List.length_append, List.length_singleton]
    exact Nat.le_succ_of_le hone

theorem Matched.run (hc : c.Matched Fits) (h : Relation.ReflTransGen (Step Fits) c c') : c'.Matched Fits := by
  induction h with
  | refl => exact hc
  | tail _ hstep ih => exact ih.step hstep

theorem getElem?_of_prefix {α : Type} {l l' : List α} {i : ℕ} {x : α} (h : l <+: l') (hx : l[i]? = some x) :
    l'[i]? = some x := by
  obtain ⟨rest, rfl⟩ := h
  rw [List.getElem?_append_left (List.getElem?_eq_some_iff.1 hx).1, hx]

/-- what came back answers the question asked at its place, which was taken in and answered -/
theorem Matched.call (hc : c.Matched Fits) {i : ℕ} {a : A} (h : c.returned[i]? = some a) :
    c.answered[i]? = some a ∧ ∃ q, c.asked[i]? = some q ∧ c.delivered[i]? = some q ∧ Fits q a := by
  have ha : c.answered[i]? = some a := getElem?_of_prefix hc.returned h
  have hlt : i < c.delivered.length := Nat.lt_of_lt_of_le (List.getElem?_eq_some_iff.1 ha).1 hc.answered
  have hq : c.delivered[i]? = some c.delivered[i] := List.getElem?_eq_getElem hlt
  exact ⟨ha, c.delivered[i], getElem?_of_prefix hc.delivered hq, hq, hc.fits i _ _ hq ha⟩

end Calls

end RustProof
