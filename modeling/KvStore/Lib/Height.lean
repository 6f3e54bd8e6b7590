import KvStore.Lib.RedBlack
import Mathlib.Data.Nat.Log
import Mathlib.Tactic.Ring

/-! How high a red-black tree is: twice the logarithm of its size, and no hole of it is deeper. -/
namespace KvStore
namespace RedBlack

variable {α : Type*} {t : RBTree α} {c : Color} {n : ℕ}

namespace RBTree

/-- The nodes on a longest path. -/
def height : RBTree α → ℕ
  | nil => 0
  | node _ l _ r => max l.height r.height + 1

theorem height_join (d : Side) (c : Color) (t s : RBTree α) (a : α) :
    (join d c t a s).height = max t.height s.height + 1 := by
  cases d
  · rfl
  · rw [max_comm]
    rfl

/-- At least every second node of a path is black. -/
theorem Balanced.height_le (h : t.Balanced c n) :
    t.height ≤ 2 * n + if c = .red then 1 else 0 := by
  induction h with
  | nil => exact Nat.zero_le _
  | red hl hr ihl ihr =>
    simp only [height, reduceCtorEq, if_false, if_true] at ihl ihr ⊢
    omega
  | black hl hr ihl ihr =>
    have hone : ∀ c : Color, (if c = .red then 1 else 0) ≤ 1 := by
      intro c
      split_ifs
      · exact le_rfl
      · exact Nat.zero_le 1
    have hleft := ihl.trans (Nat.add_le_add_left (hone _) _)
    have hright := ihr.trans (Nat.add_le_add_left (hone _) _)
    simp only [height, reduceCtorEq, if_false]
    omega

/-- The black nodes alone are a full tree. -/
theorem Balanced.two_pow_le (h : t.Balanced c n) : 2 ^ n ≤ t.toList.length + 1 := by
  induction h with
  | nil => exact le_rfl
  | red hl hr ihl ihr =>
    rw [toList, List.length_append, List.length_cons]
    omega
  | black hl hr ihl ihr =>
    rw [toList, List.length_append, List.length_cons, pow_succ]
    omega

theorem Balanced.height_le_log (h : t.Balanced .black n) :
    t.height ≤ 2 * Nat.log 2 (t.toList.length + 1) := by
  have hlog : n ≤ Nat.log 2 (t.toList.length + 1) :=
    Nat.le_log_of_pow_le Nat.one_lt_two h.two_pow_le
  have hheight := h.height_le
  simp only [reduceCtorEq, if_false] at hheight
  omega

end RBTree

open RedBlack.RBTree

/-- A hole is no deeper than the tree is high, whatever fills it. -/
theorem length_add_height_le (ctx : Ctx α) (t : RBTree α) :
    ctx.length + t.height ≤ (plug ctx t).height := by
  induction ctx generalizing t with
  | nil => exact (Nat.zero_add _).le
  | cons f ctx ih =>
    have hf := ih (f.fill t)
    rw [Frame.fill, height_join] at hf
    rw [plug_cons, List.length_cons]
    refine le_trans ?_ hf
    omega

end RedBlack
end KvStore
