/-
Weights for work that makes more work, at higher levels only.

An item at level `f` weighs `base ^ (top + 1 - f)`. If it is replaced by `k` items of one greater level, not above `top`,
and `base` is at least `2 * k`, it pays for all of them and for one unit of cost each (`weight_pays`).
-/
import Mathlib.Algebra.Group.Action.Defs
import Mathlib.Algebra.Order.BigOperators.Group.List
import Mathlib.Tactic.Ring

namespace RustProof

def weight (base top : ℕ) (levels : List ℕ) : ℕ := (levels.map fun f => base ^ (top + 1 - f)).sum

theorem weight_cons (base top f : ℕ) (levels : List ℕ) :
    weight base top (f :: levels) = base ^ (top + 1 - f) + weight base top levels := rfl

theorem weight_append (base top : ℕ) (levels levels' : List ℕ) :
    weight base top (levels ++ levels') = weight base top levels + weight base top levels' := by
  rw [weight, List.map_append, List.sum_append]
  rfl

theorem weight_replicate (base top k f : ℕ) :
    weight base top (List.replicate k f) = k * base ^ (top + 1 - f) := by
  rw [weight, List.map_replicate, List.sum_replicate, smul_eq_mul]

theorem weight_le {base : ℕ} (hbase : 0 < base) (top : ℕ) (levels : List ℕ) :
    weight base top levels ≤ levels.length * base ^ (top + 1) := by
  have hsum := List.sum_le_card_nsmul (levels.map fun f => base ^ (top + 1 - f)) (base ^ (top + 1)) fun y hy => by
    obtain ⟨f, -, rfl⟩ := List.mem_map.1 hy
    exact Nat.pow_le_pow_right hbase (Nat.sub_le _ _)
  rwa [List.length_map, smul_eq_mul] at hsum

/-- an item pays for `k` items at a greater level, and for `k` units -/
theorem weight_pays {base top k f n : ℕ} (hk : 2 * k ≤ base) (hbase : 0 < base) (hlt : f < n) (hle : n ≤ top) :
    k + weight base top (List.replicate k n) ≤ base ^ (top + 1 - f) := by
  have hone : 1 ≤ base ^ (top + 1 - n) := Nat.one_le_pow _ _ hbase
  rw [weight_replicate]
  calc k + k * base ^ (top + 1 - n) ≤ k * base ^ (top + 1 - n) + k * base ^ (top + 1 - n) :=
        Nat.add_le_add_right (Nat.le_mul_of_pos_right k hone) _
    _ = 2 * k * base ^ (top + 1 - n) := by ring
    _ ≤ base * base ^ (top + 1 - n) := Nat.mul_le_mul_right _ hk
    _ = base ^ (top + 1 - n + 1) := (Nat.pow_succ' ..).symm
    _ ≤ base ^ (top + 1 - f) := Nat.pow_le_pow_right hbase (by omega)

end RustProof
