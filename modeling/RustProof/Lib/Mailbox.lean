/-
A mailbox that is read in two ways: its owner takes the first message, or picks the first message of a kind `p` out of it
and leaves those in front where they are.

Results:
- `Run.accounted`: what was taken, picked and is still pending is what was put in, each message once; those not of the kind
  were taken in the order in which they were put in, and those of the kind picked in that order;
- `Run.taken_of_empty`: so an empty mailbox has handed all of them over.
-/
import Mathlib.Data.List.Basic
import Mathlib.Logic.Relation

namespace RustProof

/-- a mailbox and its past -/
structure Mailbox (γ : Type) where
  put : List γ
  /-- from the front -/
  taken : List γ
  /-- for their kind -/
  picked : List γ
  pending : List γ

namespace Mailbox

variable {γ : Type} {p : γ → Bool}

/-- nothing has been read -/
def start (messages : List γ) : Mailbox γ := ⟨messages, [], [], messages⟩

/-- the messages that are not of the kind -/
def others (p : γ → Bool) (messages : List γ) : List γ := messages.filter fun message => !p message

inductive Step (p : γ → Bool) : Mailbox γ → Mailbox γ → Prop
  | put (put taken picked pending : List γ) (message : γ) :
      Step p ⟨put, taken, picked, pending⟩ ⟨put ++ [message], taken, picked, pending ++ [message]⟩
  | take (put taken picked rest : List γ) (message : γ) :
      Step p ⟨put, taken, picked, message :: rest⟩ ⟨put, taken ++ [message], picked, rest⟩
  | pick (put taken picked front rest : List γ) (message : γ) (first : ∀ m ∈ front, p m = false)
      (kind : p message = true) :
      Step p ⟨put, taken, picked, front ++ message :: rest⟩ ⟨put, taken, picked ++ [message], front ++ rest⟩

def Run (p : γ → Bool) : Mailbox γ → Mailbox γ → Prop := Relation.ReflTransGen (Step p)

theorem others_append (p : γ → Bool) (l l' : List γ) : others p (l ++ l') = others p l ++ others p l' :=
  List.filter_append _ _

theorem others_cons_of_kind {message : γ} (h : p message = true) (l : List γ) : others p (message :: l) = others p l :=
  List.filter_cons_of_neg (by simp [h])

/-- every message is in one place, and none has overtaken another that is read in the same way -/
structure Accounted (p : γ → Bool) (m : Mailbox γ) : Prop where
  complete : (m.taken ++ m.picked ++ m.pending).Perm m.put
  inOrder : others p m.taken ++ others p m.pending = others p m.put
  /-- as long as none of the kind was taken from the front -/
  pickedInOrder : m.taken.filter p = [] → m.picked ++ m.pending.filter p = m.put.filter p

theorem accounted_start (messages : List γ) : Accounted p (start messages) :=
  ⟨.refl messages, List.nil_append _, fun _ => List.nil_append _⟩

theorem Accounted.step {m m' : Mailbox γ} (h : Accounted p m) (hstep : Step p m m') : Accounted p m' := by
  obtain ⟨hcomplete, hinOrder, hpicked⟩ := h
  cases hstep with
  | put put taken picked pending message =>
    refine ⟨?_, ?_, ?_⟩
    · rw [← List.append_assoc]
      exact hcomplete.append_right [message]
    · rw [others_append, ← List.append_assoc, hinOrder, others_append]
    · intro hnone
      rw [List.filter_append, ← List.append_assoc, hpicked hnone, List.filter_append]
  | take put taken picked rest message =>
    refine ⟨?_, ?_, ?_⟩
    · -- the message moves in front of what was picked
      refine List.Perm.trans ?_ hcomplete
      simp only [List.append_assoc, List.singleton_append]
      exact List.perm_middle.symm.append_left taken
    · rw [← hinOrder, others_append, List.append_assoc, ← others_append]
      rfl
    · intro hnone
      rw [List.filter_append, List.append_eq_nil_iff] at hnone
      have hother : p message ≠ true := List.filter_eq_nil_iff.1 hnone.2 message List.mem_cons_self
      rw [← hpicked hnone.1, List.filter_cons_of_neg hother]
  | pick put taken picked front rest message first kind =>
    refine ⟨?_, ?_, ?_⟩
    · refine List.Perm.trans ?_ hcomplete
      simp only [List.append_assoc, List.singleton_append]
      exact List.perm_middle.symm.append_left picked |>.append_left taken
    · rw [← hinOrder, others_append, others_append, others_cons_of_kind kind]
    · intro hnone
      have hfront : front.filter p = [] := List.filter_eq_nil_iff.2 (by simpa using first)
      rw [← hpicked hnone, List.filter_append, List.filter_append, hfront, List.filter_cons_of_pos kind,
        List.append_assoc]
      rfl

/-- **A mailbox loses nothing and keeps the order.** -/
theorem Run.accounted {messages : List γ} {m : Mailbox γ} (h : Run p (start messages) m) : Accounted p m := by
  induction h with
  | refl => exact accounted_start messages
  | tail _ hstep ih => exact ih.step hstep

theorem Run.taken_of_empty {messages : List γ} {m : Mailbox γ} (h : Run p (start messages) m) (hempty : m.pending = []) :
    others p m.taken = others p m.put := by
  rw [← h.accounted.inOrder, hempty]
  exact (List.append_nil _).symm

end Mailbox

end RustProof
