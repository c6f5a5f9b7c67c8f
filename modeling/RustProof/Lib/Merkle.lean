/-
Merkle trees that hash the last node of an odd level with itself.

`H` maps a message to its digest and `node` writes the message of an inner node from the digests of its two children. One
round replaces a level by the digests of `pairUp node level`; `climb k` is `k` rounds, and `inputs k` lists every message
they hash.

Duplicating the last node is what lets two different levels have one parent level: `[a, b, c]` and `[a, b, c, c]`. Digests
that do not repeat rule the second one out, and without a collision a level without repetitions has a parent level
without repetitions (`level_nodup`). So the rounds can be undone one by one (`climb_injective`), and two trees with one
top level have one bottom level, or the bottom of one of them is an inner level of the other (`climb_eq_climb`).
-/
import Mathlib.Data.List.Nodup
import Mathlib.Data.Set.Function
import Mathlib.Tactic

namespace RustProof.Merkle

variable {M D : Type} {H : M → D} {node : D → D → M}

/-- the messages of one round: neighbours in pairs, an odd last digest with itself -/
def pairUp (node : D → D → M) : List D → List M
  | [] => []
  | [a] => [node a a]
  | a :: b :: rest => node a b :: pairUp node rest

def level (H : M → D) (node : D → D → M) (l : List D) : List D := (pairUp node l).map H

/-- `k` rounds -/
def climb (H : M → D) (node : D → D → M) (k : ℕ) (l : List D) : List D := (level H node)^[k] l

/-- every message hashed in `k` rounds -/
def inputs (H : M → D) (node : D → D → M) : ℕ → List D → List M
  | 0, _ => []
  | k + 1, l => pairUp node l ++ inputs H node k (level H node l)

@[simp] theorem climb_zero (l : List D) : climb H node 0 l = l := rfl

theorem climb_succ (k : ℕ) (l : List D) : climb H node (k + 1) l = climb H node k (level H node l) :=
  Function.iterate_succ_apply _ _ _

theorem climb_succ' (k : ℕ) (l : List D) : climb H node (k + 1) l = level H node (climb H node k l) :=
  Function.iterate_succ_apply' _ _ _

theorem climb_add (j k : ℕ) (l : List D) : climb H node (k + j) l = climb H node k (climb H node j l) :=
  Function.iterate_add_apply _ _ _ _

/-! ## One round -/

theorem length_level (l : List D) : (level H node l).length = (l.length + 1) / 2 := by
  induction l using pairUp.induct with
  | case1 => simp [level, pairUp]
  | case2 a => simp [level, pairUp]
  | case3 a b rest ih =>
    simp only [level, pairUp, List.map_cons, List.length_cons, List.length_map] at ih ⊢
    omega

/-- a message of a round is made of digests of its level -/
theorem mem_of_mem_pairUp {l : List D} {m : M} (hm : m ∈ pairUp node l) : ∃ a ∈ l, ∃ b ∈ l, m = node a b := by
  induction l using pairUp.induct with
  | case1 => exact absurd hm List.not_mem_nil
  | case2 a =>
    rw [pairUp, List.mem_singleton] at hm
    exact ⟨a, List.mem_singleton_self a, a, List.mem_singleton_self a, hm⟩
  | case3 a b rest ih =>
    rw [pairUp, List.mem_cons] at hm
    rcases hm with rfl | hm
    · exact ⟨a, by simp, b, by simp, rfl⟩
    · obtain ⟨c, hc, d, hd, rfl⟩ := ih hm
      exact ⟨c, by simp [hc], d, by simp [hd], rfl⟩

theorem map_injOn {S : Set M} (hS : S.InjOn H) (as bs : List M) (has : ∀ m ∈ as, m ∈ S) (hbs : ∀ m ∈ bs, m ∈ S)
    (h : as.map H = bs.map H) : as = bs := by
  induction as generalizing bs with
  | nil => exact (List.map_eq_nil_iff.1 h.symm).symm
  | cons m as ih =>
    match bs with
    | [] => cases h
    | m' :: bs =>
      obtain ⟨hm, hrest⟩ := List.cons.inj h
      rw [hS (has m (by simp)) (hbs m' (by simp)) hm,
        ih bs (fun x hx => has x (by simp [hx])) (fun x hx => hbs x (by simp [hx])) hrest]

section Injective

variable (hnode : ∀ a b c d, node a b = node c d → a = c ∧ b = d)

include hnode

/-- A level without repetitions can be read off its messages: a level that ends in a duplicate is excluded. -/
theorem pairUp_injective (l l' : List D) (hl : l.Nodup) (hl' : l'.Nodup) (h : pairUp node l = pairUp node l') :
    l = l' := by
  induction l using pairUp.induct generalizing l' with
  | case1 =>
    match l' with
    | [] => rfl
    | [c] => cases h
    | c :: d :: rest' => cases h
  | case2 a =>
    match l' with
    | [] => cases h
    | [c] => rw [(hnode _ _ _ _ (List.cons.inj h).1).1]
    | c :: d :: rest' =>
      obtain ⟨hac, had⟩ := hnode _ _ _ _ (List.cons.inj h).1
      subst hac had
      simp at hl'
  | case3 a b rest ih =>
    match l' with
    | [] => cases h
    | [c] =>
      obtain ⟨hac, hbc⟩ := hnode _ _ _ _ (List.cons.inj h).1
      subst hac hbc
      simp at hl
    | c :: d :: rest' =>
      obtain ⟨hcons, hrest⟩ := List.cons.inj h
      obtain ⟨hac, hbd⟩ := hnode _ _ _ _ hcons
      have hn : rest.Nodup := (List.nodup_cons.1 (List.nodup_cons.1 hl).2).2
      have hn' : rest'.Nodup := (List.nodup_cons.1 (List.nodup_cons.1 hl').2).2
      rw [hac, hbd, ih rest' hn hn' hrest]

theorem pairUp_nodup {l : List D} (hl : l.Nodup) : (pairUp node l).Nodup := by
  induction l using pairUp.induct with
  | case1 => exact List.nodup_nil
  | case2 a => exact List.nodup_singleton _
  | case3 a b rest ih =>
    obtain ⟨ha, hrest⟩ := List.nodup_cons.1 hl
    refine List.nodup_cons.2 ⟨fun hmem => ?_, ih (List.nodup_cons.1 hrest).2⟩
    obtain ⟨c, hc, d, -, heq⟩ := mem_of_mem_pairUp hmem
    rw [(hnode _ _ _ _ heq).1] at ha
    exact ha (List.mem_cons_of_mem b hc)

variable {S : Set M} (hS : S.InjOn H)

include hS

theorem level_nodup {l : List D} (hin : ∀ m ∈ pairUp node l, m ∈ S) (hl : l.Nodup) : (level H node l).Nodup :=
  List.Nodup.map_on (fun m hm m' hm' heq => hS (hin m hm) (hin m' hm') heq) (pairUp_nodup hnode hl)

theorem level_injective {l l' : List D} (hin : ∀ m ∈ pairUp node l, m ∈ S) (hin' : ∀ m ∈ pairUp node l', m ∈ S)
    (hl : l.Nodup) (hl' : l'.Nodup) (h : level H node l = level H node l') : l = l' := by
  exact pairUp_injective hnode l l' hl hl' (map_injOn hS _ _ hin hin' h)

/-! ## Several rounds -/

theorem climb_nodup (k : ℕ) {l : List D} (hin : ∀ m ∈ inputs H node k l, m ∈ S) (hl : l.Nodup) :
    (climb H node k l).Nodup := by
  induction k generalizing l with
  | zero => exact hl
  | succ k ih =>
    rw [climb_succ]
    refine ih (fun m hm => hin m (List.mem_append_right _ hm)) ?_
    exact level_nodup hnode hS (fun m hm => hin m (List.mem_append_left _ hm)) hl

/-- The same number of rounds ends in the same level only from the same level. -/
theorem climb_injective (k : ℕ) {l l' : List D} (hin : ∀ m ∈ inputs H node k l, m ∈ S)
    (hin' : ∀ m ∈ inputs H node k l', m ∈ S) (hl : l.Nodup) (hl' : l'.Nodup)
    (h : climb H node k l = climb H node k l') : l = l' := by
  induction k generalizing l l' with
  | zero => exact h
  | succ k ih =>
    rw [climb_succ, climb_succ] at h
    have hfst : ∀ m ∈ pairUp node l, m ∈ S := fun m hm => hin m (List.mem_append_left _ hm)
    have hfst' : ∀ m ∈ pairUp node l', m ∈ S := fun m hm => hin' m (List.mem_append_left _ hm)
    have hlevel : level H node l = level H node l' :=
      ih (fun m hm => hin m (List.mem_append_right _ hm)) (fun m hm => hin' m (List.mem_append_right _ hm))
        (level_nodup hnode hS hfst hl) (level_nodup hnode hS hfst' hl') h
    exact level_injective hnode hS hfst hfst' hl hl' hlevel

omit hnode hS in
theorem inputs_add (j k : ℕ) (l : List D) :
    inputs H node (j + k) l = inputs H node j l ++ inputs H node k (climb H node j l) := by
  induction j generalizing l with
  | zero => simp [inputs]
  | succ j ih => rw [Nat.succ_add, inputs, ih, inputs, climb_succ, List.append_assoc]

/-- Two trees with one top level, the second at least as high as the first: the bottom of the first is the level of the
second at the same height below the top. -/
theorem climb_eq_climb {k j : ℕ} {l l' : List D} (hin : ∀ m ∈ inputs H node k l, m ∈ S)
    (hin' : ∀ m ∈ inputs H node (j + k) l', m ∈ S) (hl : l.Nodup) (hl' : l'.Nodup)
    (h : climb H node k l = climb H node (j + k) l') : l = climb H node j l' := by
  rw [Nat.add_comm j k, climb_add] at h
  rw [inputs_add] at hin'
  have hlow : ∀ m ∈ inputs H node j l', m ∈ S := fun m hm => hin' m (List.mem_append_left _ hm)
  have htop : ∀ m ∈ inputs H node k (climb H node j l'), m ∈ S := fun m hm => hin' m (List.mem_append_right _ hm)
  exact climb_injective hnode hS k hin htop hl (climb_nodup hnode hS j hlow hl') h

end Injective

/-- a digest of a level above the bottom is the digest of a message of a round -/
theorem mem_climb_succ {k : ℕ} {l : List D} {d : D} (hd : d ∈ climb H node (k + 1) l) :
    ∃ a b, node a b ∈ inputs H node (k + 1) l ∧ H (node a b) = d := by
  rw [climb_succ', level] at hd
  obtain ⟨m, hm, rfl⟩ := List.mem_map.1 hd
  obtain ⟨a, -, b, -, rfl⟩ := mem_of_mem_pairUp hm
  refine ⟨a, b, ?_, rfl⟩
  rw [inputs_add k 1]
  exact List.mem_append_right _ (List.mem_append_left _ hm)

end RustProof.Merkle
