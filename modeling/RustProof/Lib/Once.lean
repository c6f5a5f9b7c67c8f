/-
A cell that is written once and then only read.

A process that starts again and again keeps a value in a cell: it reads the cell if something is there, else it takes a fresh
value, writes it and goes on with it. A start can fail or be cut off at any point, also in the middle of its write, which
leaves anything in the cell. `Once` says how values are written; `Once.Step` what a start can do to the cell.

- `Step.same`: as long as the encoding reads back, a start that returns a value leaves a cell that reads as this value;
- `Run.agree`: all starts of a run that return a value return the same one;
- `Run.kept`: what is in the cell stays;
- `Run.silent`: over a cell that does not read, no start returns a value.
-/
import Mathlib.Data.Nat.Notation
import Mathlib.Tactic.SplitIfs

namespace RustProof

structure Once (K V : Type) where
  Encodes : K → V → Prop
  decode : V → Option K

namespace Once

variable {K V : Type} {O : Once K V} {c c' c'' : Option V} {r : Option K} {k k' : K}

def Lawful (O : Once K V) : Prop := ∀ {k v}, O.Encodes k v → O.decode v = some k

/-- one start: the cell before it, the value it returns, the cell after it -/
inductive Step (O : Once K V) : Option V → Option K → Option V → Prop
  | read {v : V} {k : K} (decoded : O.decode v = some k) : Step O (some v) (some k) (some v)
  | failed (c : Option V) : Step O c none c
  | created {k : K} {v : V} (encodes : O.Encodes k v) : Step O none (some k) (some v)
  /-- all of a value was written or a part of it, but the start ended without it -/
  | lost (v : V) : Step O none none (some v)

/-- starts one after the other, with what each returned -/
inductive Run (O : Once K V) : Option V → List (Option K) → Option V → Prop
  | nil (c : Option V) : Run O c [] c
  | cons {c c' c'' : Option V} {r : Option K} {rs : List (Option K)} (head : Step O c r c') (tail : Run O c' rs c'') :
    Run O c (r :: rs) c''

/-- the cell reads as `k` -/
def Holds (O : Once K V) (k : K) (c : Option V) : Prop := ∃ v, c = some v ∧ O.decode v = some k

/-- something is in the cell that does not read -/
def Unreadable (O : Once K V) (c : Option V) : Prop := ∃ v, c = some v ∧ O.decode v = none

theorem Step.same (hO : O.Lawful) (h : Step O c (some k) c') : O.Holds k c' := by
  cases h with
  | read decoded => exact ⟨_, rfl, decoded⟩
  | created encodes => exact ⟨_, rfl, hO encodes⟩

/-- a written cell stays -/
theorem Step.kept {v : V} (h : Step O (some v) r c') : c' = some v := by
  cases h <;> rfl

theorem Step.of_holds (h : Step O c (some k') c') (hc : O.Holds k c) : k' = k := by
  obtain ⟨v, rfl, hv⟩ := hc
  cases h with
  | read decoded => exact Option.some.inj (decoded.symm.trans hv)

theorem Step.of_unreadable (h : Step O c r c') (hc : O.Unreadable c) : r = none ∧ c' = c := by
  obtain ⟨v, rfl, hv⟩ := hc
  cases h with
  | read decoded => exact absurd (decoded.symm.trans hv) (Option.some_ne_none _)
  | failed => exact ⟨rfl, rfl⟩

theorem Run.kept {v : V} {rs : List (Option K)} (h : Run O c rs c') (hc : c = some v) : c' = some v := by
  induction h with
  | nil => exact hc
  | cons head _ ih =>
    subst hc
    exact ih head.kept

theorem Run.of_holds {rs : List (Option K)} (h : Run O c rs c') (hc : O.Holds k c) (hmem : some k' ∈ rs) : k' = k := by
  induction h with
  | nil => exact absurd hmem List.not_mem_nil
  | cons head tail ih =>
    obtain ⟨v, rfl, hv⟩ := hc
    rcases List.mem_cons.1 hmem with heq | hmem
    · subst heq
      exact head.of_holds ⟨v, rfl, hv⟩
    · exact ih ⟨v, head.kept, hv⟩ hmem

/-- one value in a run -/
theorem Run.agree (hO : O.Lawful) {rs : List (Option K)} (h : Run O c rs c') (hk : some k ∈ rs) (hk' : some k' ∈ rs) :
    k = k' := by
  induction h with
  | nil => exact absurd hk List.not_mem_nil
  | cons head tail ih =>
    rcases List.mem_cons.1 hk with heq | htail <;> rcases List.mem_cons.1 hk' with heq' | htail'
    · exact Option.some.inj (heq.trans heq'.symm)
    · subst heq
      exact (tail.of_holds (head.same hO) htail').symm
    · subst heq'
      exact tail.of_holds (head.same hO) htail
    · exact ih htail htail'

theorem Run.silent {rs : List (Option K)} (h : Run O c rs c') (hc : O.Unreadable c) : ∀ r ∈ rs, r = none := by
  induction h with
  | nil => exact fun r hr => absurd hr List.not_mem_nil
  | cons head tail ih =>
    obtain ⟨hr, rfl⟩ := head.of_unreadable hc
    exact List.forall_mem_cons.2 ⟨hr, ih hc⟩

end Once

end RustProof
