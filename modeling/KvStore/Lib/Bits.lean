import Mathlib.Data.Nat.Bitwise
import Mathlib.Tactic.Common

/-! The bits of a list of bytes, eight to a byte and the lowest first. One bit is read, set and
cleared with the mask `1 << k`; in these operations the byte is as wide as an `int`, and what is
stored is a byte again. -/
namespace KvStore
namespace Bits

/-- The bit `i`; past the last byte all bits are clear. -/
def bit (bs : List UInt8) (i : ℕ) : Bool := (bs[i / 8]?.getD 0).toNat.testBit (i % 8)

variable {bs : List UInt8} {b : UInt8} {i j k : ℕ}

theorem bit_of_getElem? (hb : bs[i / 8]? = some b) : bit bs i = b.toNat.testBit (i % 8) := by
  rw [bit, hb, Option.getD_some]

theorem bit_replicate_zero (n i : ℕ) : bit (List.replicate n 0) i = false := by
  rw [bit, List.getElem?_replicate]
  split_ifs <;> exact Nat.zero_testBit _

theorem toNat_mask (hk : k < 8) : (1 <<< UInt32.ofNat k : UInt32).toNat = 2 ^ k := by
  have hle : 2 ^ k ≤ 2 ^ 7 := Nat.pow_le_pow_right (by decide) (by omega)
  have hone : (1 : UInt32).toNat = 1 := rfl
  have hshift : (UInt32.ofNat k).toNat = k := by
    rw [UInt32.toNat_ofNat']
    exact Nat.mod_eq_of_lt (by omega)
  rw [UInt32.toNat_shiftLeft, hshift, hone, Nat.mod_eq_of_lt (show k < 32 by omega),
    Nat.one_shiftLeft]
  exact Nat.mod_eq_of_lt (by omega)

theorem and_mask_eq_zero_iff (b : UInt8) (hk : k < 8) :
    b.toUInt32 &&& (1 <<< UInt32.ofNat k) = 0 ↔ b.toNat.testBit k = false := by
  have hzero : (0 : UInt32).toNat = 0 := rfl
  rw [← UInt32.toNat_inj, UInt32.toNat_and, toNat_mask hk, UInt8.toNat_toUInt32, Nat.and_two_pow,
    hzero]
  cases b.toNat.testBit k with
  | false => simp
  | true => simp

/-- A byte keeps the eight lowest bits. -/
theorem testBit_toUInt8 (x : UInt32) (hj : j < 8) :
    x.toUInt8.toNat.testBit j = x.toNat.testBit j := by
  rw [UInt32.toNat_toUInt8, Nat.testBit_mod_two_pow, decide_eq_true hj, Bool.true_and]

theorem testBit_or_mask (b : UInt8) (hk : k < 8) (hj : j < 8) :
    (b.toUInt32 ||| (1 <<< UInt32.ofNat k)).toUInt8.toNat.testBit j =
      (b.toNat.testBit j || decide (k = j)) := by
  rw [testBit_toUInt8 _ hj, UInt32.toNat_or, toNat_mask hk, UInt8.toNat_toUInt32, Nat.testBit_or,
    Nat.testBit_two_pow]

theorem testBit_and_not_mask (b : UInt8) (hk : k < 8) (hj : j < 8) :
    (b.toUInt32 &&& ~~~(1 <<< UInt32.ofNat k)).toUInt8.toNat.testBit j =
      (b.toNat.testBit j && !decide (k = j)) := by
  have hmask := toNat_mask hk
  rw [testBit_toUInt8 _ hj, UInt32.toNat_and, UInt8.toNat_toUInt32, Nat.testBit_and]
  congr 1
  rw [← UInt32.toNat_toBitVec, UInt32.toBitVec_not, BitVec.testBit_toNat, BitVec.getLsbD_not,
    ← BitVec.testBit_toNat, UInt32.toNat_toBitVec, hmask, Nat.testBit_two_pow,
    decide_eq_true (show j < 32 by omega), Bool.true_and]

/-- A change of the bit `k` in its byte changes no other bit of the list. -/
theorem bit_set {b' : UInt8} {f : Bool → Bool} (hb : bs[k / 8]? = some b)
    (hf : ∀ j < 8, b'.toNat.testBit j = if k % 8 = j then f (b.toNat.testBit j)
      else b.toNat.testBit j) (i : ℕ) :
    bit (bs.set (k / 8) b') i = if k = i then f (bit bs i) else bit bs i := by
  obtain ⟨hlt, -⟩ := List.getElem?_eq_some_iff.mp hb
  by_cases hbyte : k / 8 = i / 8
  · have hset : (bs.set (k / 8) b')[i / 8]? = some b' := by
      rw [← hbyte, List.getElem?_set_self hlt]
    have hsame : k = i ↔ k % 8 = i % 8 := by omega
    rw [bit_of_getElem? hset, bit_of_getElem? (hbyte ▸ hb), hf _ (Nat.mod_lt _ (by decide))]
    simp only [hsame]
  · have hne : k ≠ i := fun heq => hbyte (by rw [heq])
    rw [if_neg hne, bit, bit, List.getElem?_set_ne hbyte]

/-- The bit `k` is set. -/
theorem bit_set_or (hb : bs[k / 8]? = some b) (i : ℕ) :
    bit (bs.set (k / 8) (b.toUInt32 ||| (1 <<< UInt32.ofNat (k % 8))).toUInt8) i =
      (bit bs i || decide (k = i)) := by
  rw [bit_set (f := fun _ => true) hb fun j hj => ?_]
  · by_cases hki : k = i <;> simp [hki]
  · rw [testBit_or_mask b (Nat.mod_lt _ (by decide)) hj]
    by_cases hkj : k % 8 = j <;> simp [hkj]

/-- The bit `k` is cleared. -/
theorem bit_set_and_not (hb : bs[k / 8]? = some b) (i : ℕ) :
    bit (bs.set (k / 8) (b.toUInt32 &&& ~~~(1 <<< UInt32.ofNat (k % 8))).toUInt8) i =
      (bit bs i && !decide (k = i)) := by
  rw [bit_set (f := fun _ => false) hb fun j hj => ?_]
  · by_cases hki : k = i <;> simp [hki]
  · rw [testBit_and_not_mask b (Nat.mod_lt _ (by decide)) hj]
    by_cases hkj : k % 8 = j <;> simp [hkj]

/-- The bits that a list of bytes can hold. -/
theorem getElem?_byte (bs : List UInt8) (hi : i < 8 * bs.length) : ∃ b, bs[i / 8]? = some b := by
  have hlt : i / 8 < bs.length := by omega
  exact ⟨bs[i / 8], List.getElem?_eq_getElem hlt⟩

end Bits
end KvStore
