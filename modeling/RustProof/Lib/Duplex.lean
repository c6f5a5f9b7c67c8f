/-
Two deterministic processes that talk over a reliable duplex stream.

A process (`Proc`) writes an element, waits for the next one it reads, or has a result. Two processes and what is on the
way in both directions make a `Duplex`; a step of either side is a move of its machine. A longer write or read is a sequence
of single ones, so that the runs of the machine are all interleavings and all ways to cut the stream into pieces.

- `Proc.Runs`: what a process does when its input is there, as a trace of writes and reads; a trace can be cut and put
  together (`Runs.cut`, `Runs.append`), also along `bind`;
- `Duplex.steps_left_puts` and its three siblings: a side that writes or reads alone for a while;
- `Duplex.steps_conversation`: one run of two sides whose traces are the two ends of one conversation;
- `Duplex.commutes`: the sides do not disturb each other. With `Machine.Steps.complete`, one run that ends decides all.
-/
import RustProof.Lib.Machine
import Mathlib.Data.List.Basic

namespace RustProof

/-- a process over a stream of `B` with result in `α` -/
inductive Proc (B α : Type) where
  | done (a : α)
  | put (b : B) (next : Proc B α)
  | get (next : B → Proc B α)

namespace Proc

variable {B α β : Type}

protected def bind : Proc B α → (α → Proc B β) → Proc B β
  | .done a, f => f a
  | .put b next, f => .put b (next.bind f)
  | .get next, f => .get fun b => (next b).bind f

instance : Monad (Proc B) where
  pure := .done
  bind := Proc.bind

def writeAll : List B → Proc B Unit
  | [] => .done ()
  | b :: rest => .put b (writeAll rest)

def readExact : ℕ → Proc B (List B)
  | 0 => .done []
  | n + 1 => .get fun b => (readExact n).bind fun rest => .done (b :: rest)

/-! ## Traces -/

inductive Event (B : Type) where
  | put (b : B)
  | get (b : B)

def puts (bs : List B) : List (Event B) := bs.map .put

def gets (bs : List B) : List (Event B) := bs.map .get

/-- `p` does what the trace says and is then `q` -/
inductive Runs : Proc B α → List (Event B) → Proc B α → Prop
  | refl (p : Proc B α) : Runs p [] p
  | put {p q : Proc B α} {b : B} {trace : List (Event B)} (rest : Runs p trace q) : Runs (.put b p) (.put b :: trace) q
  | get {next : B → Proc B α} {q : Proc B α} {b : B} {trace : List (Event B)} (rest : Runs (next b) trace q) :
    Runs (.get next) (.get b :: trace) q

namespace Runs

variable {p q r : Proc B α} {trace trace' : List (Event B)}

theorem append (h : Runs p trace q) (h' : Runs q trace' r) : Runs p (trace ++ trace') r := by
  induction h with
  | refl => exact h'
  | put _ ih => exact .put (ih h')
  | get _ ih => exact .get (ih h')

theorem cut (h : Runs p (trace ++ trace') r) : ∃ q, Runs p trace q ∧ Runs q trace' r := by
  induction trace generalizing p with
  | nil => exact ⟨p, .refl p, h⟩
  | cons event trace ih =>
    cases h with
    | put rest =>
      obtain ⟨q, h₁, h₂⟩ := ih rest
      exact ⟨q, .put h₁, h₂⟩
    | get rest =>
      obtain ⟨q, h₁, h₂⟩ := ih rest
      exact ⟨q, .get h₁, h₂⟩

theorem bind (h : Runs p trace q) (f : α → Proc B β) : Runs (p.bind f) trace (q.bind f) := by
  induction h with
  | refl => exact .refl _
  | put _ ih => exact .put ih
  | get _ ih => exact .get ih

/-- a process that ends, and what follows -/
theorem seq {a : α} {f : α → Proc B β} {r : Proc B β} (h : Runs p trace (.done a)) (h' : Runs (f a) trace' r) :
    Runs (p.bind f) (trace ++ trace') r :=
  (h.bind f).append h'

/-- a process in two parts ends after both have -/
theorem of_bind {p : Proc B α} {f : α → Proc B β} {b : β} (h : Runs (p.bind f) trace (.done b)) :
    ∃ a t t', trace = t ++ t' ∧ Runs p t (.done a) ∧ Runs (f a) t' (.done b) := by
  induction p generalizing trace with
  | done a => exact ⟨a, [], trace, rfl, .refl _, h⟩
  | put x next ih =>
    cases h with
    | put rest =>
      obtain ⟨a, t, t', rfl, hp, hf⟩ := ih rest
      exact ⟨a, .put x :: t, t', rfl, .put hp, hf⟩
  | get next ih =>
    cases h with
    | @get _ _ x _ rest =>
      obtain ⟨a, t, t', rfl, hp, hf⟩ := ih x rest
      exact ⟨a, .get x :: t, t', rfl, .get hp, hf⟩

theorem of_readExact {n : ℕ} {bs : List B} (h : Runs (Proc.readExact n) trace (.done bs)) :
    trace = gets bs ∧ bs.length = n := by
  induction n generalizing trace bs with
  | zero =>
    cases h
    exact ⟨rfl, rfl⟩
  | succ n ih =>
    cases h with
    | @get _ _ b _ rest =>
      obtain ⟨tail, t, t', rfl, htail, hdone⟩ := of_bind rest
      obtain ⟨rfl, hlen⟩ := ih htail
      cases hdone
      exact ⟨by simp [gets], by rw [List.length_cons, hlen]⟩

theorem writeAll (bs : List B) : Runs (Proc.writeAll bs) (puts bs) (.done ()) := by
  induction bs with
  | nil => exact .refl _
  | cons b rest ih => exact .put ih

theorem readExact (bs : List B) : Runs (Proc.readExact bs.length) (gets bs) (.done bs) := by
  induction bs with
  | nil => exact .refl _
  | cons b rest ih => exact .get (ih.bind fun rest => .done (b :: rest))

end Runs

end Proc

/-! ## Two processes -/

structure Duplex (B α β : Type) where
  left : Proc B α
  right : Proc B β
  /-- written by the left side and not yet read -/
  toRight : List B
  toLeft : List B

namespace Duplex

inductive Party where
  | left
  | right
deriving DecidableEq, Repr

variable {B α β : Type}

/-- the state after a step of one side, if it has something to do -/
def exec (s : Duplex B α β) : Party → Option (Duplex B α β)
  | .left =>
    match s.left, s.toLeft with
    | .put b next, _ => some { s with left := next, toRight := s.toRight ++ [b] }
    | .get next, b :: rest => some { s with left := next b, toLeft := rest }
    | _, _ => none
  | .right =>
    match s.right, s.toRight with
    | .put b next, _ => some { s with right := next, toLeft := s.toLeft ++ [b] }
    | .get next, b :: rest => some { s with right := next b, toRight := rest }
    | _, _ => none

def machine (start : Duplex B α β) : Machine (Duplex B α β) Party where
  init s := s = start
  exec := exec

theorem left_right {s s₁ s₂ : Duplex B α β} (h₁ : s.exec .left = some s₁) (h₂ : s.exec .right = some s₂) :
    ∃ s₃, s₁.exec .right = some s₃ ∧ s₂.exec .left = some s₃ := by
  obtain ⟨l, r, toRight, toLeft⟩ := s
  cases l with
  | done => exact nomatch h₁
  | put b l =>
    cases h₁
    cases r with
    | done => exact nomatch h₂
    | put b' r =>
      cases h₂
      exact ⟨_, rfl, rfl⟩
    | get next =>
      cases toRight with
      | nil => exact nomatch h₂
      | cons b' rest =>
        cases h₂
        exact ⟨_, rfl, rfl⟩
  | get next =>
    cases toLeft with
    | nil => exact nomatch h₁
    | cons b rest =>
      cases h₁
      cases r with
      | done => exact nomatch h₂
      | put b' r =>
        cases h₂
        exact ⟨_, rfl, rfl⟩
      | get next' =>
        cases toRight with
        | nil => exact nomatch h₂
        | cons b' rest' =>
          cases h₂
          exact ⟨_, rfl, rfl⟩

/-- the sides do not disturb each other -/
theorem commutes (start : Duplex B α β) : (machine start).Commutes := by
  intro s m m' s₁ s₂ hne h₁ h₂
  cases m with
  | left =>
    cases m' with
    | left => exact absurd rfl hne
    | right => exact left_right h₁ h₂
  | right =>
    cases m' with
    | left =>
      obtain ⟨s₃, h, h'⟩ := left_right h₂ h₁
      exact ⟨s₃, h', h⟩
    | right => exact absurd rfl hne

/-- both sides have a result -/
theorem final_done (start : Duplex B α β) (a : α) (b : β) (toRight toLeft : List B) :
    (machine start).Final ⟨.done a, .done b, toRight, toLeft⟩ := by
  intro m
  cases m <;> rfl

/-! ## One side alone -/

variable {start : Duplex B α β}

theorem steps_left_puts {p q : Proc B α} {bs : List B} (h : p.Runs (Proc.puts bs) q) (r : Proc B β)
    (toRight toLeft : List B) :
    (machine start).Steps bs.length ⟨p, r, toRight, toLeft⟩ ⟨q, r, toRight ++ bs, toLeft⟩ := by
  induction bs generalizing p toRight with
  | nil =>
    cases h
    rw [List.append_nil]
    exact .refl _
  | cons b rest ih =>
    cases h with
    | put h =>
      have hrest := ih h (toRight ++ [b])
      rw [List.append_assoc] at hrest
      exact .step (m := .left) rfl hrest

theorem steps_left_gets {p q : Proc B α} {bs : List B} (h : p.Runs (Proc.gets bs) q) (r : Proc B β)
    (toRight toLeft : List B) :
    (machine start).Steps bs.length ⟨p, r, toRight, bs ++ toLeft⟩ ⟨q, r, toRight, toLeft⟩ := by
  induction bs generalizing p with
  | nil =>
    cases h
    exact .refl _
  | cons b rest ih =>
    cases h with
    | get h => exact .step (m := .left) rfl (ih h)

theorem steps_right_puts {p q : Proc B β} {bs : List B} (h : p.Runs (Proc.puts bs) q) (l : Proc B α)
    (toRight toLeft : List B) :
    (machine start).Steps bs.length ⟨l, p, toRight, toLeft⟩ ⟨l, q, toRight, toLeft ++ bs⟩ := by
  induction bs generalizing p toLeft with
  | nil =>
    cases h
    rw [List.append_nil]
    exact .refl _
  | cons b rest ih =>
    cases h with
    | put h =>
      have hrest := ih h (toLeft ++ [b])
      rw [List.append_assoc] at hrest
      exact .step (m := .right) rfl hrest

theorem steps_right_gets {p q : Proc B β} {bs : List B} (h : p.Runs (Proc.gets bs) q) (l : Proc B α)
    (toRight toLeft : List B) :
    (machine start).Steps bs.length ⟨l, p, bs ++ toRight, toLeft⟩ ⟨l, q, toRight, toLeft⟩ := by
  induction bs generalizing p with
  | nil =>
    cases h
    exact .refl _
  | cons b rest ih =>
    cases h with
    | get h => exact .step (m := .right) rfl (ih h)

/-- a message from the left to the right side, with nothing else on the way -/
theorem steps_message_right {p p' : Proc B α} {q q' : Proc B β} {bs : List B} (hp : p.Runs (Proc.puts bs) p')
    (hq : q.Runs (Proc.gets bs) q') :
    (machine start).Steps (bs.length + bs.length) ⟨p, q, [], []⟩ ⟨p', q', [], []⟩ := by
  have hread : (machine start).Steps bs.length ⟨p', q, bs ++ [], []⟩ ⟨p', q', [], []⟩ := steps_right_gets hq p' [] []
  rw [List.append_nil] at hread
  exact (steps_left_puts hp q [] []).trans hread

theorem steps_message_left {p p' : Proc B α} {q q' : Proc B β} {bs : List B} (hp : p.Runs (Proc.gets bs) p')
    (hq : q.Runs (Proc.puts bs) q') :
    (machine start).Steps (bs.length + bs.length) ⟨p, q, [], []⟩ ⟨p', q', [], []⟩ := by
  have hread : (machine start).Steps bs.length ⟨p, q', [], bs ++ []⟩ ⟨p', q', [], []⟩ := steps_left_gets hp q' [] []
  rw [List.append_nil] at hread
  exact (steps_right_puts hq p [] []).trans hread

/-- what one side does in a conversation, message by message -/
def Party.trace (side : Party) (messages : List (Party × List B)) : List (Proc.Event B) :=
  messages.flatMap fun m => if m.1 = side then Proc.puts m.2 else Proc.gets m.2

/-- a conversation in which every message is read before the next one is written -/
theorem steps_conversation {p p' : Proc B α} {q q' : Proc B β} {messages : List (Party × List B)}
    (hp : p.Runs (Party.left.trace messages) p') (hq : q.Runs (Party.right.trace messages) q') :
    ∃ n, (machine start).Steps n ⟨p, q, [], []⟩ ⟨p', q', [], []⟩ := by
  induction messages generalizing p q with
  | nil =>
    cases hp
    cases hq
    exact ⟨0, .refl _⟩
  | cons m rest ih =>
    obtain ⟨side, bs⟩ := m
    obtain ⟨p₁, hp₁, hp⟩ := Proc.Runs.cut hp
    obtain ⟨q₁, hq₁, hq⟩ := Proc.Runs.cut hq
    obtain ⟨n, hn⟩ := ih hp hq
    cases side with
    | left => exact ⟨_, (steps_message_right hp₁ hq₁).trans hn⟩
    | right => exact ⟨_, (steps_message_left hp₁ hq₁).trans hn⟩

end Duplex

end RustProof
