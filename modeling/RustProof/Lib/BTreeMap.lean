/-
Ordered maps as strictly sorted association lists: the standard library's B-tree map seen through its observable
behaviour (lookup, insert, remove, iteration in key order, length). The order invariant is a field, so an unsorted map
cannot be built and two maps with the same lookups are equal (`ext_get?`).

Results used by the developments built on it:
- `get?_insert`, `get?_remove`: what an update does to every key (and nothing to the others);
- `weight_insert`, `weight_remove`: how a sum over all values changes with one entry, the accounting rule behind
  conservation arguments;
- `len_insert_le`, `len_remove`: how the number of entries changes, the measure of loops that consume a map;
- `foldl_insert_entries`: re-inserting the entries of a map in iteration order rebuilds it, the step behind every
  "write the entries, read them back" codec;
- `keys_insert`, `keys_remove`, `card_keys`: a map as the set of its keys.
-/
import Mathlib.Order.Basic
import Mathlib.Data.List.Basic
import Mathlib.Tactic

namespace RustProof

/-! ## Sorted association lists -/

namespace Assoc

variable {K V : Type} [LinearOrder K]

/-- the value stored under `k` -/
def find (k : K) : List (K × V) → Option V
  | [] => none
  | (k', v) :: l => if k' = k then some v else find k l

/-- insert in key order, replacing the entry of an equal key -/
def put (k : K) (v : V) : List (K × V) → List (K × V)
  | [] => [(k, v)]
  | (k', v') :: l =>
    if k < k' then (k, v) :: (k', v') :: l
    else if k' = k then (k, v) :: l
    else (k', v') :: put k v l

/-- drop the entry of `k` (at most one in a sorted list) -/
def erase (k : K) : List (K × V) → List (K × V)
  | [] => []
  | (k', v) :: l => if k' = k then l else (k', v) :: erase k l

/-- strictly increasing keys -/
def Sorted (l : List (K × V)) : Prop := l.Pairwise fun a b => a.1 < b.1

theorem mem_put {k : K} {v : V} {l : List (K × V)} {e : K × V} (he : e ∈ put k v l) : e = (k, v) ∨ e ∈ l := by
  induction l with
  | nil => simpa [put] using he
  | cons a l ih =>
    simp only [put] at he
    split_ifs at he
    · simpa using he
    · rcases List.mem_cons.1 he with h | h
      · exact Or.inl h
      · exact Or.inr (List.mem_cons_of_mem _ h)
    · rcases List.mem_cons.1 he with h | h
      · exact Or.inr (by rw [h]; exact List.mem_cons_self)
      · rcases ih h with h | h
        · exact Or.inl h
        · exact Or.inr (List.mem_cons_of_mem _ h)

theorem sorted_put {l : List (K × V)} (k : K) (v : V) (h : Sorted l) : Sorted (put k v l) := by
  induction l with
  | nil => simp [put, Sorted]
  | cons a l ih =>
    obtain ⟨hhd, htl⟩ := List.pairwise_cons.1 h
    simp only [put]
    split_ifs with hlt heq
    · refine List.pairwise_cons.2 ⟨fun e he => ?_, h⟩
      rcases List.mem_cons.1 he with rfl | he
      · exact hlt
      · exact hlt.trans (hhd e he)
    · subst heq
      exact List.pairwise_cons.2 ⟨hhd, htl⟩
    · refine List.pairwise_cons.2 ⟨fun e he => ?_, ih htl⟩
      rcases mem_put he with rfl | he
      · exact lt_of_le_of_ne (not_lt.1 hlt) heq
      · exact hhd e he

theorem find_eq_none_of_lt {k : K} {l : List (K × V)} (h : ∀ e ∈ l, k < e.1) : find k l = none := by
  induction l with
  | nil => rfl
  | cons a l ih =>
    have ha : a.1 ≠ k := (h a List.mem_cons_self).ne'
    simp only [find, if_neg ha]
    exact ih fun e he => h e (List.mem_cons_of_mem _ he)

theorem mem_iff_find {l : List (K × V)} (h : Sorted l) (k : K) (v : V) : (k, v) ∈ l ↔ find k l = some v := by
  induction l with
  | nil => simp [find]
  | cons a l ih =>
    obtain ⟨hhd, htl⟩ := List.pairwise_cons.1 h
    obtain ⟨k', v'⟩ := a
    by_cases hk : k' = k
    · subst hk
      have hnot : (k', v) ∉ l := fun hm => lt_irrefl k' (hhd (k', v) hm)
      simp [find, hnot, eq_comm]
    · simp [find, hk, Ne.symm hk, ih htl]

theorem find_put (l : List (K × V)) (k k' : K) (v : V) :
    find k' (put k v l) = if k = k' then some v else find k' l := by
  induction l with
  | nil => simp [put, find]
  | cons a l ih =>
    obtain ⟨ka, va⟩ := a
    simp only [put]
    by_cases hlt : k < ka
    · simp only [if_pos hlt, find]
    · by_cases heq : ka = k
      · subst heq
        by_cases hk : ka = k' <;> simp [find, hk]
      · simp only [if_neg hlt, if_neg heq, find, ih]
        by_cases hk : k = k'
        · subst hk; simp [heq]
        · simp [hk]

theorem erase_sublist (k : K) (l : List (K × V)) : (erase k l).Sublist l := by
  induction l with
  | nil => exact List.Sublist.slnil
  | cons a l ih =>
    simp only [erase]
    split_ifs
    · exact List.sublist_cons_self a l
    · exact ih.cons_cons a

theorem find_erase {l : List (K × V)} (h : Sorted l) (k k' : K) :
    find k' (erase k l) = if k = k' then none else find k' l := by
  induction l with
  | nil => simp [erase, find]
  | cons a l ih =>
    obtain ⟨ka, va⟩ := a
    obtain ⟨hhd, htl⟩ := List.pairwise_cons.1 h
    by_cases hka : ka = k
    · subst hka
      by_cases hk : ka = k'
      · subst hk
        simp [erase, find_eq_none_of_lt hhd]
      · simp [erase, find, hk]
    · by_cases hk : k = k'
      · subst hk; simp [erase, find, hka, ih htl]
      · simp [erase, find, hka, ih htl, hk]

/-- the entries of two sorted lists with the same lookups coincide -/
theorem eq_of_find_eq {l₁ l₂ : List (K × V)} (h₁ : Sorted l₁) (h₂ : Sorted l₂) (h : ∀ k, find k l₁ = find k l₂) :
    l₁ = l₂ := by
  have irr : ∀ a b : K × V, a ∈ l₁ → b ∈ l₂ → a.1 < b.1 → b.1 < a.1 → a = b :=
    fun a b _ _ hab hba => absurd hab hba.asymm
  refine List.Perm.eq_of_pairwise irr h₁ h₂ ?_
  have nodup : ∀ {l : List (K × V)}, Sorted l → l.Nodup := fun hl => hl.imp fun hab => by
    rintro rfl; exact lt_irrefl _ hab
  refine (List.perm_ext_iff_of_nodup (nodup h₁) (nodup h₂)).2 fun e => ?_
  rw [mem_iff_find h₁ e.1 e.2, mem_iff_find h₂ e.1 e.2, h]

/-- a key above all others goes to the end -/
theorem put_append_of_lt {l : List (K × V)} {k : K} (v : V) (h : ∀ e ∈ l, e.1 < k) : put k v l = l ++ [(k, v)] := by
  induction l with
  | nil => rfl
  | cons a l ih =>
    have ha := h a List.mem_cons_self
    simp only [put, if_neg ha.asymm, if_neg ha.ne, List.cons_append]
    rw [ih fun e he => h e (List.mem_cons_of_mem _ he)]

end Assoc

/-! ## Maps -/

/-- an ordered map: entries in strictly increasing key order -/
structure BTreeMap (K V : Type) [LinearOrder K] where
  entries : List (K × V)
  sorted : Assoc.Sorted entries

namespace BTreeMap

variable {K V : Type} [LinearOrder K]

def empty : BTreeMap K V := ⟨[], List.Pairwise.nil⟩

def get? (m : BTreeMap K V) (k : K) : Option V := Assoc.find k m.entries

def getD (m : BTreeMap K V) (k : K) (d : V) : V := (m.get? k).getD d

def contains (m : BTreeMap K V) (k : K) : Bool := (m.get? k).isSome

def insert (m : BTreeMap K V) (k : K) (v : V) : BTreeMap K V := ⟨Assoc.put k v m.entries, Assoc.sorted_put k v m.sorted⟩

def remove (m : BTreeMap K V) (k : K) : BTreeMap K V :=
  ⟨Assoc.erase k m.entries, m.sorted.sublist (Assoc.erase_sublist k m.entries)⟩

/-- keep the entries that satisfy `p` -/
def retain (m : BTreeMap K V) (p : K → V → Bool) : BTreeMap K V :=
  ⟨m.entries.filter fun e => p e.1 e.2, m.sorted.sublist List.filter_sublist⟩

def len (m : BTreeMap K V) : ℕ := m.entries.length

def isEmpty (m : BTreeMap K V) : Bool := m.entries.isEmpty

@[ext] theorem ext_entries {m n : BTreeMap K V} (h : m.entries = n.entries) : m = n := by
  cases m; cases n; cases h; rfl

theorem ext_get? {m n : BTreeMap K V} (h : ∀ k, m.get? k = n.get? k) : m = n :=
  ext_entries (Assoc.eq_of_find_eq m.sorted n.sorted h)

instance [DecidableEq V] : DecidableEq (BTreeMap K V) := fun m n =>
  decidable_of_iff (m.entries = n.entries) ⟨ext_entries, congrArg entries⟩

theorem mem_entries_iff (m : BTreeMap K V) (k : K) (v : V) : (k, v) ∈ m.entries ↔ m.get? k = some v :=
  Assoc.mem_iff_find m.sorted k v

@[simp] theorem get?_empty (k : K) : (empty : BTreeMap K V).get? k = none := rfl

theorem get?_insert (m : BTreeMap K V) (k k' : K) (v : V) :
    (m.insert k v).get? k' = if k = k' then some v else m.get? k' := Assoc.find_put m.entries k k' v

@[simp] theorem get?_insert_self (m : BTreeMap K V) (k : K) (v : V) : (m.insert k v).get? k = some v := by
  simp [get?_insert]

theorem get?_insert_ne (m : BTreeMap K V) {k k' : K} (v : V) (h : k ≠ k') : (m.insert k v).get? k' = m.get? k' := by
  simp [get?_insert, h]

theorem get?_remove (m : BTreeMap K V) (k k' : K) : (m.remove k).get? k' = if k = k' then none else m.get? k' :=
  Assoc.find_erase m.sorted k k'

@[simp] theorem get?_remove_self (m : BTreeMap K V) (k : K) : (m.remove k).get? k = none := by simp [get?_remove]

theorem get?_remove_ne (m : BTreeMap K V) {k k' : K} (h : k ≠ k') : (m.remove k).get? k' = m.get? k' := by
  simp [get?_remove, h]

theorem get?_retain (m : BTreeMap K V) (p : K → V → Bool) (k : K) : (m.retain p).get? k = (m.get? k).filter (p k) := by
  refine Option.ext fun v => ?_
  rw [← mem_entries_iff, Option.filter_eq_some_iff, ← mem_entries_iff]
  exact List.mem_filter

theorem get?_retain_of_none {m : BTreeMap K V} {p : K → V → Bool} {k : K} (h : m.get? k = none) :
    (m.retain p).get? k = none := by
  rw [get?_retain, h]
  rfl

theorem getD_insert (m : BTreeMap K V) (k k' : K) (v d : V) :
    (m.insert k v).getD k' d = if k = k' then v else m.getD k' d := by
  unfold getD; rw [get?_insert]; split_ifs <;> rfl

@[simp] theorem getD_insert_self (m : BTreeMap K V) (k : K) (v d : V) : (m.insert k v).getD k d = v := by
  simp [getD_insert]

theorem contains_iff (m : BTreeMap K V) (k : K) : m.contains k = true ↔ ∃ v, m.get? k = some v := Option.isSome_iff_exists

theorem isEmpty_iff (m : BTreeMap K V) : m.isEmpty = true ↔ m = empty := by
  constructor
  · intro h; exact ext_entries (List.isEmpty_iff.1 h)
  · rintro rfl; rfl

/-! ### Sums over the values -/

/-- the sum of a weight over all values -/
def weight (f : V → ℕ) (m : BTreeMap K V) : ℕ := (m.entries.map fun e => f e.2).sum

@[simp] theorem weight_empty (f : V → ℕ) : weight f (empty : BTreeMap K V) = 0 := rfl

theorem weight_put (f : V → ℕ) (l : List (K × V)) (h : Assoc.Sorted l) (k : K) (v : V) :
    ((Assoc.put k v l).map fun e => f e.2).sum + ((Assoc.find k l).map f).getD 0 =
      (l.map fun e => f e.2).sum + f v := by
  induction l with
  | nil => simp [Assoc.put, Assoc.find]
  | cons a l ih =>
    obtain ⟨ka, va⟩ := a
    obtain ⟨hhd, htl⟩ := List.pairwise_cons.1 h
    simp only [Assoc.put]
    split_ifs with hlt heq
    · have hn : Assoc.find k l = none := Assoc.find_eq_none_of_lt fun e he => hlt.trans (hhd e he)
      simp [Assoc.find, hlt.ne', hn]; omega
    · subst heq
      simp [Assoc.find]; omega
    · have := ih htl
      simp only [Assoc.find, if_neg heq, List.map_cons, List.sum_cons] at this ⊢
      omega

/-- writing `v` under `k` replaces the old value's weight by `f v` -/
theorem weight_insert (f : V → ℕ) (m : BTreeMap K V) (k : K) (v : V) :
    weight f (m.insert k v) + ((m.get? k).map f).getD 0 = weight f m + f v :=
  weight_put f m.entries m.sorted k v

theorem weight_erase (f : V → ℕ) (l : List (K × V)) (k : K) :
    ((Assoc.erase k l).map fun e => f e.2).sum + ((Assoc.find k l).map f).getD 0 = (l.map fun e => f e.2).sum := by
  induction l with
  | nil => rfl
  | cons a l ih =>
    obtain ⟨ka, va⟩ := a
    by_cases hk : ka = k
    · simp [Assoc.erase, Assoc.find, hk]; omega
    · simp only [Assoc.erase, Assoc.find, if_neg hk, List.map_cons, List.sum_cons]
      omega

theorem weight_remove (f : V → ℕ) (m : BTreeMap K V) (k : K) :
    weight f (m.remove k) + ((m.get? k).map f).getD 0 = weight f m := weight_erase f m.entries k

/-- one entry weighs at most the whole map -/
theorem weight_get?_le (f : V → ℕ) (m : BTreeMap K V) (k : K) : ((m.get? k).map f).getD 0 ≤ weight f m := by
  have := weight_remove f m k
  omega

/-! ### Number of entries -/

theorem len_eq_weight (m : BTreeMap K V) : m.len = weight (fun _ => 1) m := by simp [len, weight]

theorem len_insert (m : BTreeMap K V) (k : K) (v : V) :
    (m.insert k v).len = if m.contains k then m.len else m.len + 1 := by
  have := weight_insert (fun _ : V => 1) m k v
  rw [← len_eq_weight, ← len_eq_weight] at this
  cases hk : m.get? k <;> simp [contains, hk] at this ⊢ <;> omega

theorem len_insert_le (m : BTreeMap K V) (k : K) (v : V) : (m.insert k v).len ≤ m.len + 1 := by
  rw [len_insert]; split_ifs <;> omega

theorem len_remove {m : BTreeMap K V} {k : K} {v : V} (h : m.get? k = some v) : (m.remove k).len + 1 = m.len := by
  have := weight_remove (fun _ : V => 1) m k
  rw [← len_eq_weight, ← len_eq_weight] at this
  simpa [h] using this

/-! ### Rebuilding a map from its entries -/

theorem len_remove_le (m : BTreeMap K V) (k : K) : (m.remove k).len ≤ m.len :=
  (Assoc.erase_sublist k m.entries).length_le

theorem foldl_insert_append (l : List (K × V)) (m : BTreeMap K V) (h : Assoc.Sorted (m.entries ++ l)) :
    (l.foldl (fun m e => m.insert e.1 e.2) m).entries = m.entries ++ l := by
  induction l generalizing m with
  | nil => simp
  | cons a l ih =>
    obtain ⟨_, _, hcross⟩ := List.pairwise_append.1 h
    have hput : (m.insert a.1 a.2).entries = m.entries ++ [a] :=
      Assoc.put_append_of_lt a.2 fun e he => hcross e he a List.mem_cons_self
    rw [List.foldl_cons, ih _ (by rw [hput]; simpa using h), hput]
    simp

theorem foldl_insert_entries (m : BTreeMap K V) : m.entries.foldl (fun m e => m.insert e.1 e.2) empty = m :=
  ext_entries (foldl_insert_append m.entries empty (by simpa [empty] using m.sorted))

/-! ### The set of keys -/

def keys (m : BTreeMap K V) : Finset K := (m.entries.map Prod.fst).toFinset

theorem mem_keys {m : BTreeMap K V} {k : K} : k ∈ m.keys ↔ ∃ v, m.get? k = some v := by
  simp only [keys, List.mem_toFinset, List.mem_map, Prod.exists, mem_entries_iff, exists_and_right, exists_eq_right]

theorem keys_nodup (m : BTreeMap K V) : (m.entries.map Prod.fst).Nodup :=
  List.pairwise_map.2 (m.sorted.imp fun h => h.ne)

theorem card_keys (m : BTreeMap K V) : m.keys.card = m.len := by
  rw [keys, List.toFinset_card_of_nodup m.keys_nodup, List.length_map, len]

theorem keys_insert (m : BTreeMap K V) (k : K) (v : V) : (m.insert k v).keys = Insert.insert k m.keys := by
  ext k'
  rw [Finset.mem_insert, mem_keys, mem_keys, get?_insert]
  split_ifs with h
  · simp [h]
  · simp [Ne.symm h]

theorem keys_remove (m : BTreeMap K V) (k : K) : (m.remove k).keys = m.keys.erase k := by
  ext k'
  rw [Finset.mem_erase, mem_keys, mem_keys, get?_remove]
  split_ifs with h
  · simp [h]
  · simp [Ne.symm h]

/-- the last entry in key order has the greatest key -/
theorem le_getLast {m : BTreeMap K V} {e : K × V} (h : m.entries.getLast? = some e) : ∀ k ∈ m.keys, k ≤ e.1 := by
  intro k hk
  obtain ⟨l, hl⟩ := List.getLast?_eq_some_iff.1 h
  have hsorted := m.sorted
  rw [Assoc.Sorted, hl, List.pairwise_append] at hsorted
  obtain ⟨v, hv⟩ := mem_keys.1 hk
  have hmem := (mem_entries_iff m k v).2 hv
  rw [hl, List.mem_append, List.mem_singleton] at hmem
  rcases hmem with hmem | rfl
  · exact (hsorted.2.2 _ hmem e (List.mem_singleton_self e)).le
  · exact le_rfl

end BTreeMap

end RustProof
