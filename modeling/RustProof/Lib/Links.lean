/-
Links between the elements of two types, at most one for each: Mathlib's partial equivalences, with the two updates a
registry makes.

`relink` links `a` and `b` and drops the links they had to others; `unlink` drops the link of `b`. Both look the same from
either side (`relink_symm_apply`, `unlink_symm_apply`).
-/
import Mathlib.Data.PEquiv
import Mathlib.Tactic.SplitIfs

namespace RustProof

namespace Links

variable {α β : Type} [DecidableEq α] [DecidableEq β]

/-- the partner of `x` once `a` and `b` are linked -/
def relinked (P : α ≃. β) (a : α) (b : β) (x : α) : Option β :=
  if x = a then some b else if P x = some b then none else P x

theorem relinked_symm {P : α ≃. β} {a x : α} {b y : β} (h : relinked P a b x = some y) :
    relinked P.symm b a y = some x := by
  unfold relinked at h ⊢
  split_ifs at h with hx hb
  · rw [hx, if_pos (Option.some.inj h).symm]
  · have hsymm : P.symm y = some x := P.eq_some_iff.2 h
    have hy : y ≠ b := fun hy => hb (hy ▸ h)
    have ha : P.symm y ≠ some a := fun ha => hx (Option.some.inj (hsymm.symm.trans ha))
    rw [if_neg hy, if_neg ha]
    exact hsymm

def relink (P : α ≃. β) (a : α) (b : β) : α ≃. β where
  toFun := relinked P a b
  invFun := relinked P.symm b a
  inv _ _ := ⟨fun h => relinked_symm h, fun h => relinked_symm h⟩

theorem relink_apply (P : α ≃. β) (a : α) (b : β) (x : α) :
    relink P a b x = if x = a then some b else if P x = some b then none else P x := rfl

theorem relink_symm_apply (P : α ≃. β) (a : α) (b : β) (y : β) :
    (relink P a b).symm y = if y = b then some a else if P.symm y = some a then none else P.symm y := rfl

def unlink (P : α ≃. β) (b : β) : α ≃. β where
  toFun x := if P x = some b then none else P x
  invFun y := if y = b then none else P.symm y
  inv x y := by
    constructor
    · intro h
      split_ifs at h with hy
      have hP := P.eq_some_iff.1 h
      rw [if_neg fun hb => hy (Option.some.inj (hP.symm.trans hb))]
      exact hP
    · intro h
      split_ifs at h with hx
      have hy : y ≠ b := fun hy => hx (hy ▸ h)
      rw [if_neg hy]
      exact P.eq_some_iff.2 h

omit [DecidableEq α] in
theorem unlink_apply (P : α ≃. β) (b : β) (x : α) : unlink P b x = if P x = some b then none else P x := rfl

omit [DecidableEq α] in
theorem unlink_symm_apply (P : α ≃. β) (b y : β) : (unlink P b).symm y = if y = b then none else P.symm y := rfl

end Links

end RustProof
