/-
Readers that run in a loop until nothing is left, as the decoder of a tagged format does with the fields of a message.

A `Reader` takes something from the front of the bytes. `readAll step` hands its result on as the state of the next turn;
every turn of it has to consume something, so that the loop ends. What is read in one turn is a chunk, and what matters of
a chunk is its effect on the state: `Applies step chunk g`.

Results:
- `Applied.readAll`: over chunks with known effects the loop ends and has applied them in order;
- `Applied.optional`, `Applied.repeated`, `Applied.append`: the effects of a message from those of its fields;
- `Applied.inserted`: chunks without effect change nothing, wherever they stand.
-/
import Mathlib.Data.List.Basic

namespace RustProof

/-- reads from the front of the bytes and gives back what is left of them -/
def Reader (ε β α : Type) : Type := List β → Except ε (α × List β)

namespace Reader

variable {ε β α γ : Type} {x : Reader ε β α} {f : α → Reader ε β γ} {chunk chunk' : List β} {a : α} {c : γ}

def map (x : Reader ε β α) (f : α → γ) : Reader ε β γ :=
  fun bytes => (x bytes).map fun r => (f r.1, r.2)

def andThen (x : Reader ε β α) (f : α → Reader ε β γ) : Reader ε β γ := fun bytes =>
  match x bytes with
  | .error e => .error e
  | .ok (a, rest) => f a rest

/-- never goes back -/
def Moves (x : Reader ε β α) : Prop := ∀ ⦃bytes a rest⦄, x bytes = .ok (a, rest) → rest.length ≤ bytes.length

/-- takes at least one byte -/
def Consumes (x : Reader ε β α) : Prop := ∀ ⦃bytes a rest⦄, x bytes = .ok (a, rest) → rest.length < bytes.length

/-- reads `a` from these bytes, whatever follows them -/
def Reads (x : Reader ε β α) (chunk : List β) (a : α) : Prop := ∀ rest, x (chunk ++ rest) = .ok (a, rest)

theorem map_eq_ok {g : α → γ} {bytes rest : List β} :
    x.map g bytes = .ok (c, rest) ↔ ∃ a, x bytes = .ok (a, rest) ∧ g a = c := by
  unfold map
  cases x bytes with
  | error e => simp [Except.map]
  | ok r =>
    obtain ⟨a, mid⟩ := r
    simp [Except.map, and_comm, eq_comm]

theorem andThen_eq_ok {bytes rest : List β} :
    x.andThen f bytes = .ok (c, rest) ↔ ∃ a mid, x bytes = .ok (a, mid) ∧ f a mid = .ok (c, rest) := by
  unfold andThen
  cases x bytes with
  | error e => simp
  | ok r =>
    obtain ⟨a, mid⟩ := r
    simp

theorem Consumes.moves (h : x.Consumes) : x.Moves := fun _ _ _ hread => Nat.le_of_lt (h hread)

theorem Consumes.map (h : x.Consumes) (g : α → γ) : (x.map g).Consumes := by
  intro bytes c rest hread
  obtain ⟨a, hread, -⟩ := map_eq_ok.1 hread
  exact h hread

theorem Moves.map (h : x.Moves) (g : α → γ) : (x.map g).Moves := by
  intro bytes c rest hread
  obtain ⟨a, hread, -⟩ := map_eq_ok.1 hread
  exact h hread

theorem Consumes.andThen (h : x.Consumes) (hf : ∀ a, (f a).Moves) : (x.andThen f).Consumes := by
  intro bytes c rest hread
  obtain ⟨a, mid, hfirst, hread⟩ := andThen_eq_ok.1 hread
  exact Nat.lt_of_le_of_lt (hf a hread) (h hfirst)

theorem Reads.map (h : x.Reads chunk a) (g : α → γ) : (x.map g).Reads chunk (g a) := by
  intro rest
  exact map_eq_ok.2 ⟨a, h rest, rfl⟩

theorem Reads.andThen (h : x.Reads chunk a) (hf : (f a).Reads chunk' c) : (x.andThen f).Reads (chunk ++ chunk') c := by
  intro rest
  rw [List.append_assoc]
  exact andThen_eq_ok.2 ⟨a, chunk' ++ rest, h _, hf rest⟩

end Reader

/-! ## The loop -/

section Loop

variable {ε β M : Type} {step : M → Reader ε β M}

def readAll (step : M → Reader ε β M) (hstep : ∀ m, (step m).Consumes) (m : M) : List β → Except ε M
  | [] => .ok m
  | b :: bytes =>
    match _ : step m (b :: bytes) with
    | .error e => .error e
    | .ok (m', rest) => readAll step hstep m' rest
termination_by bytes => bytes.length
decreasing_by exact hstep m ‹_›

theorem readAll_nil (hstep : ∀ m, (step m).Consumes) (m : M) : readAll step hstep m [] = .ok m := by
  rw [readAll]

theorem readAll_step (hstep : ∀ m, (step m).Consumes) {m m' : M} {bytes rest : List β}
    (h : step m bytes = .ok (m', rest)) : readAll step hstep m bytes = readAll step hstep m' rest := by
  cases bytes with
  | nil => exact absurd (hstep m h) (Nat.not_lt_zero _)
  | cons b bytes =>
    rw [readAll]
    split
    · rename_i e he
      rw [h] at he
      cases he
    · rename_i m₁ rest₁ hok
      rw [h] at hok
      cases hok
      rfl

/-- one turn of the loop takes these bytes and does `g` to the state -/
def Applies (step : M → Reader ε β M) (chunk : List β) (g : M → M) : Prop := ∀ m, (step m).Reads chunk (g m)

/-- one turn for each chunk, and what they do in the end -/
inductive Applied (step : M → Reader ε β M) : List (List β) → (M → M) → Prop
  | nil : Applied step [] id
  | cons {chunk : List β} {chunks : List (List β)} {g g' : M → M} :
    Applies step chunk g → Applied step chunks g' → Applied step (chunk :: chunks) (g' ∘ g)

/-- the chunks of `before` with further ones that satisfy `p` in front, between and behind -/
inductive Inserted (p : List β → Prop) : List (List β) → List (List β) → Prop
  | nil : Inserted p [] []
  | keep (chunk : List β) {before after : List (List β)} :
    Inserted p before after → Inserted p (chunk :: before) (chunk :: after)
  | insert {chunk : List β} {before after : List (List β)} :
    p chunk → Inserted p before after → Inserted p before (chunk :: after)

theorem Inserted.refl (p : List β → Prop) (chunks : List (List β)) : Inserted p chunks chunks := by
  induction chunks with
  | nil => exact .nil
  | cons chunk chunks ih => exact .keep chunk ih

namespace Applied

variable {α : Type} {chunks chunks' : List (List β)} {g g' : M → M}

theorem append (h : Applied step chunks g) (h' : Applied step chunks' g') : Applied step (chunks ++ chunks') (g' ∘ g) := by
  induction h with
  | nil => exact h'
  | cons hchunk _ ih =>
    rw [List.cons_append, ← Function.comp_assoc]
    exact .cons hchunk ih

/-- a field that is written if it is there -/
theorem optional {chunk : α → List β} (put : M → Option α → M) (hnone : ∀ m, put m none = m)
    (h : ∀ a, Applies step (chunk a) fun m => put m (some a)) (o : Option α) :
    Applied step (o.toList.map chunk) fun m => put m o := by
  cases o with
  | none =>
    have hid : (fun m => put m none) = id := funext hnone
    rw [hid]
    exact .nil
  | some a => exact .cons (h a) .nil

/-- a field that is written once for each entry of a list -/
theorem repeated {chunk : α → List β} (add : M → List α → M) (hnil : ∀ m, add m [] = m)
    (hcons : ∀ m a l, add (add m [a]) l = add m (a :: l)) (h : ∀ a, Applies step (chunk a) fun m => add m [a])
    (l : List α) : Applied step (l.map chunk) fun m => add m l := by
  induction l with
  | nil =>
    have hid : (fun m => add m []) = id := funext hnil
    rw [hid]
    exact .nil
  | cons a l ih =>
    have hcomp : (fun m => add m (a :: l)) = (fun m => add m l) ∘ fun m => add m [a] :=
      funext fun m => (hcons m a l).symm
    rw [hcomp]
    exact .cons (h a) ih

/-- chunks that do nothing to the state may stand anywhere -/
theorem inserted {p : List β → Prop} (hp : ∀ chunk, p chunk → Applies step chunk id) (hins : Inserted p chunks chunks')
    (h : Applied step chunks g) : Applied step chunks' g := by
  induction hins generalizing g with
  | nil => exact h
  | keep chunk _ ih =>
    cases h with
    | cons hchunk h => exact .cons hchunk (ih h)
  | insert hchunk _ ih => exact .cons (hp _ hchunk) (ih h)

theorem readAll (hstep : ∀ m, (step m).Consumes) (h : Applied step chunks g) (m : M) :
    readAll step hstep m chunks.flatten = .ok (g m) := by
  induction h generalizing m with
  | nil => exact readAll_nil hstep m
  | cons hchunk _ ih =>
    rw [List.flatten_cons, readAll_step hstep (hchunk m _)]
    exact ih _

end Applied

end Loop

end RustProof
