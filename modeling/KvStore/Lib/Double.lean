import Mathlib

/-! Doubles as the comparisons of C see them. Between numbers the order is the one of their bits
read as sign and magnitude, in which both zeros are the same; nothing compares with a NaN. -/
namespace KvStore

structure Double where
  bits : BitVec 64

namespace Double

variable {x y : Double}

/-- Exponent and significand. -/
def magnitude (x : Double) : ℕ := x.bits.toNat % 2 ^ 63

/-- Above the magnitude of the infinities, whose significand is zero. -/
def IsNaN (x : Double) : Prop := 0x7FF0000000000000 < x.magnitude

instance : DecidablePred IsNaN := fun x =>
  inferInstanceAs (Decidable (0x7FF0000000000000 < x.magnitude))

/-- The place of a number in the order; a NaN has none. -/
def rank (x : Double) : WithBot ℤ :=
  if x.IsNaN then ⊥ else if x.bits.msb then ((-x.magnitude : ℤ) : WithBot ℤ) else (x.magnitude : ℤ)

theorem rank_eq_bot : x.rank = ⊥ ↔ x.IsNaN := by
  unfold rank
  split_ifs with hx
  · exact iff_of_true rfl hx
  · exact iff_of_false WithBot.coe_ne_bot hx
  · exact iff_of_false WithBot.coe_ne_bot hx

instance : Zero Double := ⟨⟨0⟩⟩

instance : LT Double := ⟨fun x y => ¬ x.IsNaN ∧ ¬ y.IsNaN ∧ x.rank < y.rank⟩

instance : LE Double := ⟨fun x y => ¬ x.IsNaN ∧ ¬ y.IsNaN ∧ x.rank ≤ y.rank⟩

instance : BEq Double := ⟨fun x y => decide (¬ x.IsNaN ∧ ¬ y.IsNaN ∧ x.rank = y.rank)⟩

instance : DecidableLT Double := fun x y =>
  have : Decidable (x.rank < y.rank) := WithBot.decidableLT x.rank y.rank
  inferInstanceAs (Decidable (¬ x.IsNaN ∧ ¬ y.IsNaN ∧ x.rank < y.rank))

instance : DecidableLE Double := fun x y =>
  have : Decidable (x.rank ≤ y.rank) := WithBot.decidableLE x.rank y.rank
  inferInstanceAs (Decidable (¬ x.IsNaN ∧ ¬ y.IsNaN ∧ x.rank ≤ y.rank))

/-- On the right a NaN is below every number, as it is in no order. -/
theorem lt_iff (hx : ¬ x.IsNaN) : x < y ↔ x.rank < y.rank := by
  refine ⟨fun h => h.2.2, fun h => ⟨hx, fun hy => ?_, h⟩⟩
  rw [rank_eq_bot.mpr hy] at h
  exact not_lt_bot h

theorem le_iff (hx : ¬ x.IsNaN) : x ≤ y ↔ x.rank ≤ y.rank := by
  refine ⟨fun h => h.2.2, fun h => ⟨hx, fun hy => ?_, h⟩⟩
  rw [rank_eq_bot.mpr hy, le_bot_iff, rank_eq_bot] at h
  exact hx h

theorem beq_iff (hx : ¬ x.IsNaN) : (x == y) = true ↔ x.rank = y.rank := by
  refine decide_eq_true_iff.trans ⟨fun h => h.2.2, fun h => ⟨hx, fun hy => ?_, h⟩⟩
  rw [rank_eq_bot.mpr hy, rank_eq_bot] at h
  exact hx h

theorem not_lt_of_isNaN (hy : y.IsNaN) : ¬ x < y := fun h => h.2.1 hy

theorem not_le_of_isNaN (hx : x.IsNaN) : ¬ x ≤ y := fun h => h.1 hx

def one : Double := ⟨0x3FF0000000000000⟩
def two : Double := ⟨0x4000000000000000⟩
def nan : Double := ⟨0x7FF8000000000000⟩

example : 0 < one ∧ one < two ∧ ¬ one ≤ nan ∧ (⟨0x8000000000000000⟩ : Double) == 0 := by decide

end Double
end KvStore
