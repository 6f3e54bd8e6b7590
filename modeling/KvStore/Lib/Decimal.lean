import Mathlib.Data.List.TakeWhile
import Mathlib.Data.Nat.Digits.Lemmas
import Mathlib.Data.UInt

/-! Numbers as decimal text: what `%d` writes, and what `strtol` reads. -/
namespace KvStore
namespace Decimal

/-- The digits of a number, the highest first. -/
def digits (n : ℕ) : List UInt8 :=
  if n = 0 then [48] else (Nat.digits 10 n).reverse.map fun d => UInt8.ofNat (48 + d)

def decimal (n : ℤ) : List UInt8 :=
  if n < 0 then 45 :: digits n.natAbs else digits n.natAbs

/-- `isspace` in the C locale. -/
def isSpace (b : UInt8) : Bool := b = 32 ∨ 9 ≤ b ∧ b ≤ 13

def isDigit (b : UInt8) : Bool := 48 ≤ b ∧ b ≤ 57

/-- The number that the digits at the head of a text spell. -/
def readDigits (bs : List UInt8) : ℕ :=
  (bs.takeWhile isDigit).foldl (fun v b => 10 * v + (b.toNat - 48)) 0

/-- `strtol` to base ten: blanks, a sign, digits; what a `long` does not hold gives its nearest
value. -/
def strtol (bs : List UInt8) : ℤ :=
  let v : ℤ :=
    match bs.dropWhile isSpace with
    | 45 :: bs => -(readDigits bs)
    | 43 :: bs => readDigits bs
    | bs => readDigits bs
  max (-2 ^ 63) (min v (2 ^ 63 - 1))

/-- `atoi`, which cuts the result of `strtol` down to an `int`. -/
def atoi (bs : List UInt8) : Int32 := Int32.ofInt (strtol bs)

theorem toNat_digit {d : ℕ} (hd : d < 10) : (UInt8.ofNat (48 + d)).toNat = 48 + d := by
  rw [UInt8.toNat_ofNat', Nat.mod_eq_of_lt (by omega)]

theorem digits_lt {n d : ℕ} (h : d ∈ Nat.digits 10 n) : d < 10 := Nat.digits_lt_base (by decide) h

/-- Every byte of a number is a digit. -/
theorem mem_digits {n : ℕ} {b : UInt8} (h : b ∈ digits n) : 48 ≤ b.toNat ∧ b.toNat ≤ 57 := by
  unfold digits at h
  split_ifs at h
  · rw [List.mem_singleton.mp h]
    decide
  · obtain ⟨d, hd, rfl⟩ := List.mem_map.mp h
    have hlt := digits_lt (List.mem_reverse.mp hd)
    rw [toNat_digit hlt]
    omega

theorem isDigit_of_mem {n : ℕ} {b : UInt8} (h : b ∈ digits n) : isDigit b = true := by
  have hb := mem_digits h
  simp only [isDigit, UInt8.le_iff_toNat_le, decide_eq_true_eq]
  exact hb

theorem mem_decimal {n : ℤ} {b : UInt8} (h : b ∈ decimal n) :
    b = 45 ∨ 48 ≤ b.toNat ∧ b.toNat ≤ 57 := by
  unfold decimal at h
  split_ifs at h
  · obtain rfl | h := List.mem_cons.mp h
    · exact .inl rfl
    · exact .inr (mem_digits h)
  · exact .inr (mem_digits h)

theorem readDigits_digits (n : ℕ) : readDigits (digits n) = n := by
  rw [readDigits, List.takeWhile_eq_self_iff.mpr fun b hb => isDigit_of_mem hb]
  by_cases hn : n = 0
  · rw [hn]
    decide
  · rw [digits, if_neg hn, List.foldl_map, List.foldl_reverse]
    -- Horner's scheme from the lowest digit on
    have hfold : ∀ l : List ℕ, (∀ d ∈ l, d < 10) →
        l.foldr (fun d v => 10 * v + ((UInt8.ofNat (48 + d)).toNat - 48)) 0 = Nat.ofDigits 10 l := by
      intro l hl
      induction l with
      | nil => rfl
      | cons d l ih =>
        rw [List.foldr_cons, ih fun d' hd' => hl d' (List.mem_cons_of_mem d hd'),
          toNat_digit (hl d List.mem_cons_self), Nat.ofDigits_cons]
        rw [Nat.add_sub_cancel_left, Nat.add_comm]
    rw [hfold _ fun d => digits_lt, Nat.ofDigits_digits]

theorem digits_ne_nil (n : ℕ) : digits n ≠ [] := by
  unfold digits
  split_ifs with h
  · exact List.cons_ne_nil _ _
  · rw [Ne, List.map_eq_nil_iff, List.reverse_eq_nil_iff, Nat.digits_eq_nil_iff_eq_zero]
    exact h

theorem length_digits_le {n k : ℕ} (hk : 0 < k) (h : n < 10 ^ k) : (digits n).length ≤ k := by
  unfold digits
  split_ifs
  · exact hk
  · rw [List.length_map, List.length_reverse]
    exact (Nat.digits_length_le_iff (by decide) n).mpr h

/-- A number that a `long` holds is read back. -/
theorem strtol_decimal {n : ℤ} (h : -2 ^ 63 ≤ n) (h' : n < 2 ^ 63) : strtol (decimal n) = n := by
  have hread : (match (decimal n).dropWhile isSpace with
      | 45 :: bs => -(readDigits bs : ℤ)
      | 43 :: bs => (readDigits bs : ℤ)
      | bs => (readDigits bs : ℤ)) = n := by
    by_cases hn : n < 0
    · have hdrop : (45 :: digits n.natAbs).dropWhile isSpace = 45 :: digits n.natAbs := rfl
      rw [decimal, if_pos hn, hdrop]
      simp only [readDigits_digits]
      exact (Int.eq_neg_comm.mp (Int.ofNat_natAbs_of_nonpos hn.le)).symm
    · obtain ⟨b, bs, hb⟩ := List.exists_cons_of_ne_nil (digits_ne_nil n.natAbs)
      have hdigit := mem_digits (n := n.natAbs) (b := b) (by rw [hb]; exact List.mem_cons_self)
      have hspace : isSpace b = false := by
        simp only [isSpace, UInt8.le_iff_toNat_le, ← UInt8.toNat_inj, decide_eq_false_iff_not]
        intro hs
        have h13 : (13 : UInt8).toNat = 13 := rfl
        have h32 : (32 : UInt8).toNat = 32 := rfl
        omega
      have hne : ∀ c : UInt8, c.toNat < 48 → b ≠ c := by
        rintro c hc rfl
        omega
      have hval := readDigits_digits n.natAbs
      rw [decimal, if_neg hn, hb, List.dropWhile_cons, hspace]
      rw [hb] at hval
      simp only [Bool.false_eq_true, if_false]
      split
      · rename_i he
        exact absurd (List.cons.inj he).1 (hne 45 (by decide))
      · rename_i he
        exact absurd (List.cons.inj he).1 (hne 43 (by decide))
      · rw [hval]
        exact Int.natAbs_of_nonneg (not_lt.mp hn)
  rw [strtol, hread]
  omega

/-- An `int` is read back. -/
theorem atoi_decimal (n : Int32) : atoi (decimal n.toInt) = n := by
  have hle := n.le_toInt
  have hlt := n.toInt_lt
  rw [atoi, strtol_decimal (by omega) (by omega), Int32.ofInt_toInt]

theorem length_decimal_le (n : Int32) : (decimal n.toInt).length ≤ 11 := by
  have hle := n.le_toInt
  have hlt := n.toInt_lt
  have hdigits : (digits n.toInt.natAbs).length ≤ 10 := length_digits_le (by decide) (by omega)
  unfold decimal
  split_ifs
  · exact Nat.succ_le_succ hdigits
  · omega

end Decimal
end KvStore
