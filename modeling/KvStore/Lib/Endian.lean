import Mathlib.Data.Nat.Digits.Defs

/-! Numbers of a fixed width as bytes: the lowest byte first, and in network order. -/
namespace KvStore
namespace Endian

/-- The `n` bytes of `v`, the lowest first; what does not fit is cut off. -/
def toBytes (n v : ℕ) : List UInt8 := (List.range n).map fun i => UInt8.ofNat (v / 256 ^ i)

/-- The number that the bytes spell, the lowest first. -/
def ofBytes (bs : List UInt8) : ℕ := Nat.ofDigits 256 (bs.map UInt8.toNat)

@[simp] theorem length_toBytes (n v : ℕ) : (toBytes n v).length = n := by simp [toBytes]

theorem toBytes_succ (n v : ℕ) :
    toBytes (n + 1) v = UInt8.ofNat v :: toBytes n (v / 256) := by
  unfold toBytes
  rw [List.range_succ_eq_map, List.map_cons, List.map_map, pow_zero, Nat.div_one]
  congr 1
  apply List.map_congr_left
  intro i _
  simp only [Function.comp, Nat.succ_eq_add_one, pow_succ', ← Nat.div_div_eq_div_mul]

theorem ofBytes_cons (b : UInt8) (bs : List UInt8) :
    ofBytes (b :: bs) = b.toNat + 256 * ofBytes bs := by
  simp [ofBytes, Nat.ofDigits_cons]

/-- Reading the bytes back gives the number up to the width. -/
theorem ofBytes_toBytes (n v : ℕ) : ofBytes (toBytes n v) = v % 256 ^ n := by
  induction n generalizing v with
  | zero => simp [toBytes, ofBytes, Nat.mod_one]
  | succ n ih =>
    rw [toBytes_succ, ofBytes_cons, ih, pow_succ', Nat.mod_mul, UInt8.toNat_ofNat']

theorem ofBytes_toBytes_of_lt {n v : ℕ} (h : v < 256 ^ n) : ofBytes (toBytes n v) = v := by
  rw [ofBytes_toBytes, Nat.mod_eq_of_lt h]

/-- Bytes are determined by their number and the number they spell. -/
theorem toBytes_ofBytes (bs : List UInt8) : toBytes bs.length (ofBytes bs) = bs := by
  induction bs with
  | nil => rfl
  | cons b bs ih =>
    have hb := b.toNat_lt
    have hlow : UInt8.ofNat (b.toNat + 256 * ofBytes bs) = b := by
      apply UInt8.toNat_inj.mp
      rw [UInt8.toNat_ofNat']
      omega
    have hhigh : (b.toNat + 256 * ofBytes bs) / 256 = ofBytes bs := by omega
    rw [List.length_cons, ofBytes_cons, toBytes_succ, hlow, hhigh, ih]

/-- The `n` bytes of `v`, the highest first. -/
def toNet (n v : ℕ) : List UInt8 := (toBytes n v).reverse

/-- The number that the bytes spell, the highest first. -/
def ofNet (bs : List UInt8) : ℕ := ofBytes bs.reverse

@[simp] theorem length_toNet (n v : ℕ) : (toNet n v).length = n := by simp [toNet]

theorem ofNet_toNet (n v : ℕ) : ofNet (toNet n v) = v % 256 ^ n := by
  rw [ofNet, toNet, List.reverse_reverse, ofBytes_toBytes]

theorem toNet_ofNet (bs : List UInt8) : toNet bs.length (ofNet bs) = bs := by
  rw [toNet, ofNet, ← List.length_reverse, toBytes_ofBytes, List.reverse_reverse]

end Endian
end KvStore
