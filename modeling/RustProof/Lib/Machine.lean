/-
Systems that are given by what each move does.

A machine has initial states, and a move takes a state to the next one or is not possible. Several parties that run side by
side are one machine, whose moves say which party does what next: the runs of the machine are then all interleavings. A
condition `C` on states and moves singles out some runs.

- `Reached.invariant`: what holds at the start and is kept by every move that meets the condition holds in every state
  reached;
- `replay`: a schedule as a list of moves, which can be computed; what the moves keep holds at its end
  (`replay_invariant`), and its end is reached (`Reached.of_replay`);
- `Steps.complete`: if different moves commute and one run of `n` steps ends where no move is possible, then no run is
  longer, and every run can go on to the same end. How the parties interleave then does not matter.
-/
import Mathlib.Data.Nat.Notation
import Mathlib.Tactic.SplitIfs

namespace RustProof

structure Machine (S M : Type) where
  init : S → Prop
  /-- the state after a move, if it is possible -/
  exec : S → M → Option S

namespace Machine

variable {S M : Type} {A : Machine S M} {C : S → M → Prop} {s s' : S}

/-- the states of the runs all of whose moves meet `C` -/
inductive Reached (A : Machine S M) (C : S → M → Prop) : S → Prop
  | start {s : S} (init : A.init s) : Reached A C s
  | step {s s' : S} {m : M} (reached : Reached A C s) (cond : C s m) (exec : A.exec s m = some s') : Reached A C s'

theorem Reached.invariant {I : S → Prop} (hinit : ∀ s, A.init s → I s)
    (hstep : ∀ s m s', I s → C s m → A.exec s m = some s' → I s') (h : A.Reached C s) : I s := by
  induction h with
  | start init => exact hinit _ init
  | step _ cond exec ih => exact hstep _ _ _ ih cond exec

theorem Reached.mono {D : S → M → Prop} (hcond : ∀ s m, C s m → D s m) (h : A.Reached C s) : A.Reached D s := by
  induction h with
  | start init => exact .start init
  | step _ cond exec ih => exact ih.step (hcond _ _ cond) exec

section Replay

variable [∀ s m, Decidable (C s m)]

/-- the last state of a schedule, if all its moves are possible and meet `C` -/
def replay (A : Machine S M) (C : S → M → Prop) [∀ s m, Decidable (C s m)] : List M → S → Option S
  | [], s => some s
  | m :: ms, s => if C s m then (A.exec s m).bind fun s' => replay A C ms s' else none

theorem replay_invariant {I : S → Prop} (hstep : ∀ s m s', I s → C s m → A.exec s m = some s' → I s') {ms : List M}
    (hs : I s) (h : A.replay C ms s = some s') : I s' := by
  induction ms generalizing s with
  | nil =>
    cases h
    exact hs
  | cons m ms ih =>
    rw [replay] at h
    split_ifs at h with hcond
    obtain ⟨s₁, hm, hrest⟩ := Option.bind_eq_some_iff.1 h
    exact ih (hstep s m s₁ hs hcond hm) hrest

theorem Reached.of_replay {ms : List M} (hs : A.Reached C s) (h : A.replay C ms s = some s') : A.Reached C s' :=
  replay_invariant (fun _ _ _ hreached hcond hexec => hreached.step hcond hexec) hs h

end Replay

/-! ## Moves that commute -/

/-- `n` moves lead from the one state to the other -/
inductive Steps (A : Machine S M) : ℕ → S → S → Prop
  | refl (s : S) : Steps A 0 s s
  | step {s s₁ s' : S} {m : M} {n : ℕ} (exec : A.exec s m = some s₁) (rest : Steps A n s₁ s') : Steps A (n + 1) s s'

/-- no move is possible -/
def Final (A : Machine S M) (s : S) : Prop := ∀ m, A.exec s m = none

/-- two different moves that are possible can be made in either order, with the same result -/
def Commutes (A : Machine S M) : Prop :=
  ∀ s m m' s₁ s₂, m ≠ m' → A.exec s m = some s₁ → A.exec s m' = some s₂ →
    ∃ s₃, A.exec s₁ m' = some s₃ ∧ A.exec s₂ m = some s₃

theorem Steps.trans {n n' : ℕ} {s₁ : S} (h : A.Steps n s s₁) (h' : A.Steps n' s₁ s') : A.Steps (n + n') s s' := by
  induction h with
  | refl =>
    rw [Nat.zero_add]
    exact h'
  | step exec _ ih =>
    rw [Nat.add_right_comm]
    exact .step exec (ih h')

/-- whatever move comes first, the end is one step nearer -/
theorem Steps.strip (hc : A.Commutes) {n : ℕ} {s₁ : S} {m : M} (h : A.Steps n s s') (hs' : A.Final s')
    (hm : A.exec s m = some s₁) : ∃ k, n = k + 1 ∧ A.Steps k s₁ s' := by
  induction h generalizing s₁ with
  | refl s => exact nomatch (hs' m).symm.trans hm
  | step exec rest ih =>
    rename_i s s₂ s' m' n
    by_cases heq : m' = m
    · rw [heq, hm] at exec
      cases exec
      exact ⟨n, rfl, rest⟩
    · -- the two moves meet again one step later
      obtain ⟨s₃, hs₂, hs₁⟩ := hc s m' m s₂ s₁ heq exec hm
      obtain ⟨k, rfl, hrest⟩ := ih hs' hs₂
      exact ⟨k + 1, rfl, .step hs₁ hrest⟩

theorem Steps.complete (hc : A.Commutes) {n k : ℕ} {u : S} (h : A.Steps n s s') (hs' : A.Final s')
    (hu : A.Steps k s u) : ∃ j, n = k + j ∧ A.Steps j u s' := by
  induction hu generalizing n with
  | refl s => exact ⟨n, (Nat.zero_add n).symm, h⟩
  | step exec _ ih =>
    obtain ⟨n', rfl, hrest⟩ := h.strip hc hs' exec
    obtain ⟨j, rfl, hj⟩ := ih hrest
    exact ⟨j, by omega, hj⟩

theorem Steps.eq_of_final {n : ℕ} (h : A.Steps n s s') (hs : A.Final s) : s = s' := by
  cases h with
  | refl => rfl
  | step exec _ => exact nomatch (hs _).symm.trans exec

end Machine

end RustProof
