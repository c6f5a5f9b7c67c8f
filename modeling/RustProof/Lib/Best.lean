/-
Keeping the `n` best of everything seen, one element at a time.

`Best r n seen held` says that `held` is at most `n` of the elements seen and that none was left out for a worse one: as
soon as one is left out, `held` is full and everything in it ranks at least as high. A greedy collector keeps it by the
four steps an element can take (`again`, `insert`, `refuse`, `replace`), whatever the order they come in; where ranks
tie, which of them is held depends on that order, but not their ranks (`Best.ranks`).

`Covers` says the same about one element without looking at the past: it is held, or there is no place for it. Two
collectors that cover what the other holds cover the same elements (`Covers.transfer`).
-/
import Mathlib.Data.Finset.Card
import Mathlib.Data.Multiset.Sort

namespace RustProof

variable {K R : Type} [DecidableEq K] [LinearOrder R]

structure Best (r : K → R) (n : ℕ) (seen held : Finset K) : Prop where
  sub : held ⊆ seen
  card : held.card ≤ n
  left : ∀ x ∈ seen, x ∉ held → held.card = n ∧ ∀ y ∈ held, r x ≤ r y

namespace Best

variable {r : K → R} {n : ℕ} {seen held : Finset K} {x low : K}

omit [DecidableEq K] in
theorem empty (r : K → R) (n : ℕ) : Best r n ∅ ∅ :=
  ⟨Finset.Subset.refl _, Nat.zero_le n, fun _ hx => absurd hx (Finset.notMem_empty _)⟩

theorem again (h : Best r n seen held) (hx : x ∈ held) : Best r n (insert x seen) held := by
  rw [Finset.insert_eq_of_mem (h.sub hx)]
  exact h

/-- there is room: nothing was left out so far -/
theorem insert (h : Best r n seen held) (hx : x ∉ held) (hroom : held.card < n) :
    Best r n (insert x seen) (insert x held) := by
  refine ⟨Finset.insert_subset_insert x h.sub, ?_, ?_⟩
  · rw [Finset.card_insert_of_notMem hx]
    exact hroom
  · intro y hy hny
    obtain ⟨hyx, hyh⟩ := not_or.1 (fun hc => hny (Finset.mem_insert.2 hc))
    have hys := (Finset.mem_insert.1 hy).resolve_left hyx
    exact absurd (h.left y hys hyh).1 hroom.ne

theorem refuse (h : Best r n seen held) (hfull : held.card = n) (hx : ∀ y ∈ held, r x ≤ r y) :
    Best r n (Insert.insert x seen) held := by
  refine ⟨h.sub.trans (Finset.subset_insert x seen), h.card, ?_⟩
  intro y hy hyh
  rcases Finset.mem_insert.1 hy with rfl | hys
  · exact ⟨hfull, hx⟩
  · exact h.left y hys hyh

theorem replace (h : Best r n seen held) (hfull : held.card = n) (hx : x ∉ held) (hlow : low ∈ held)
    (hleast : ∀ y ∈ held, r low ≤ r y) (hlt : r low < r x) :
    Best r n (Insert.insert x seen) (Insert.insert x (held.erase low)) := by
  have hxe : x ∉ held.erase low := fun hc => hx (Finset.mem_of_mem_erase hc)
  have hcard : (Insert.insert x (held.erase low)).card = n := by
    rw [Finset.card_insert_of_notMem hxe, Finset.card_erase_add_one hlow, hfull]
  refine ⟨Finset.insert_subset_insert x ((Finset.erase_subset _ _).trans h.sub), hcard.le, ?_⟩
  intro y hy hny
  obtain ⟨hyx, hye⟩ := not_or.1 (fun hc => hny (Finset.mem_insert.2 hc))
  have hys := (Finset.mem_insert.1 hy).resolve_left hyx
  -- what is left out ranks no higher than what was evicted, whether it is `low` itself or was left out before
  have hyl : r y ≤ r low := by
    by_cases hyh : y ∈ held
    · rw [not_not.1 fun hne => hye (Finset.mem_erase.2 ⟨hne, hyh⟩)]
    · exact (h.left y hys hyh).2 low hlow
  refine ⟨hcard, ?_⟩
  intro z hz
  rcases Finset.mem_insert.1 hz with rfl | hz
  · exact hyl.trans hlt.le
  · exact hyl.trans (hleast z (Finset.mem_of_mem_erase hz))

/-- the ranks held are the `n` highest of the ranks seen -/
theorem ranks (h : Best r n seen held) :
    Multiset.sort (held.val.map r) (· ≥ ·) = (Multiset.sort (seen.val.map r) (· ≥ ·)).take n := by
  have hsplit : seen.val = held.val + (seen \ held).val := by
    rw [Finset.sdiff_val, Multiset.add_comm, Multiset.sub_add_cancel (Finset.val_le_iff.2 h.sub)]
  have hperm : Multiset.sort (seen.val.map r) (· ≥ ·) =
      Multiset.sort (held.val.map r) (· ≥ ·) ++ Multiset.sort ((seen \ held).val.map r) (· ≥ ·) := by
    refine List.Perm.eq_of_pairwise' (r := (· ≥ ·)) (Multiset.pairwise_sort _ _) ?_ ?_
    · refine List.pairwise_append.2 ⟨Multiset.pairwise_sort _ _, Multiset.pairwise_sort _ _, ?_⟩
      intro a ha b hb
      obtain ⟨y, hy, rfl⟩ := Multiset.mem_map.1 ((Multiset.mem_sort _).1 ha)
      obtain ⟨x, hx, rfl⟩ := Multiset.mem_map.1 ((Multiset.mem_sort _).1 hb)
      obtain ⟨hxs, hxh⟩ := Finset.mem_sdiff.1 hx
      exact (h.left x hxs hxh).2 y hy
    · rw [← Multiset.coe_eq_coe, ← Multiset.coe_add]
      simp only [Multiset.sort_eq]
      rw [← Multiset.map_add, ← hsplit]
  have hlen : (Multiset.sort (held.val.map r) (· ≥ ·)).length = held.card := by
    rw [Multiset.length_sort, Multiset.card_map, Finset.card_val]
  rw [hperm]
  rcases (seen \ held).eq_empty_or_nonempty with hnone | ⟨x, hx⟩
  · rw [hnone, Finset.empty_val, Multiset.map_zero, Multiset.sort_zero, List.append_nil, List.take_of_length_le]
    rw [hlen]
    exact h.card
  · obtain ⟨hxs, hxh⟩ := Finset.mem_sdiff.1 hx
    rw [List.take_left' (hlen.trans (h.left x hxs hxh).1)]

end Best

/-! ## Elements that are held or have no place -/

def Covers (r : K → R) (n : ℕ) (held : Finset K) (x : K) : Prop := x ∈ held ∨ (held.card = n ∧ ∀ y ∈ held, r x ≤ r y)

variable {r : K → R} {n : ℕ} {held : Finset K} {x y low : K}

omit [DecidableEq K] in
theorem Best.of_covers {seen : Finset K} (hsub : held ⊆ seen) (hcard : held.card ≤ n)
    (h : ∀ x ∈ seen, Covers r n held x) : Best r n seen held :=
  ⟨hsub, hcard, fun x hx hout => (h x hx).resolve_left hout⟩

theorem Covers.insert (h : Covers r n held x) (hroom : held.card < n) : Covers r n (Insert.insert y held) x := by
  rcases h with hheld | ⟨hfull, _⟩
  · exact .inl (Finset.mem_insert_of_mem hheld)
  · exact absurd hfull hroom.ne

theorem Covers.replace (h : Covers r n held x) (hfull : held.card = n) (hy : y ∉ held) (hlow : low ∈ held)
    (hleast : ∀ z ∈ held, r low ≤ r z) (hlt : r low < r y) :
    Covers r n (Insert.insert y (held.erase low)) x := by
  have hbest : Best r n (Insert.insert y (Insert.insert x held)) (Insert.insert y (held.erase low)) := by
    refine Best.replace ?_ hfull hy hlow hleast hlt
    refine Best.of_covers (Finset.subset_insert x held) hfull.le ?_
    intro z hz
    rcases Finset.mem_insert.1 hz with rfl | hz
    · exact h
    · exact .inl hz
  by_cases hx : x ∈ Insert.insert y (held.erase low)
  · exact .inl hx
  · exact .inr (hbest.left x (Finset.mem_insert_of_mem (Finset.mem_insert_self x held)) hx)

/-- both hold the `n` best of what they hold together, so the same ranks -/
theorem Covers.transfer {held' : Finset K} (hcard : held.card ≤ n) (hcard' : held'.card ≤ n)
    (hcov : ∀ y ∈ held', Covers r n held y) (hcov' : ∀ y ∈ held, Covers r n held' y) (h : Covers r n held x) :
    Covers r n held' x := by
  rcases h with hheld | ⟨hfull, hleast⟩
  · exact hcov' x hheld
  · have hbest : Best r n (held ∪ held') held := by
      refine Best.of_covers Finset.subset_union_left hcard ?_
      intro y hy
      exact (Finset.mem_union.1 hy).elim .inl (hcov y)
    have hbest' : Best r n (held ∪ held') held' := by
      refine Best.of_covers Finset.subset_union_right hcard' ?_
      intro y hy
      exact (Finset.mem_union.1 hy).elim (hcov' y) .inl
    have hranks : held.val.map r = held'.val.map r := by
      rw [← Multiset.sort_eq (held.val.map r) (· ≥ ·), ← Multiset.sort_eq (held'.val.map r) (· ≥ ·), hbest.ranks,
        hbest'.ranks]
    refine .inr ⟨?_, ?_⟩
    · rw [← hfull, ← Finset.card_val, ← Finset.card_val, ← Multiset.card_map r held'.val, ← hranks, Multiset.card_map]
    · intro z hz
      have hmem : r z ∈ held.val.map r := by
        rw [hranks]
        exact Multiset.mem_map_of_mem r hz
      obtain ⟨y, hy, heq⟩ := Multiset.mem_map.1 hmem
      rw [← heq]
      exact hleast y hy

end RustProof
