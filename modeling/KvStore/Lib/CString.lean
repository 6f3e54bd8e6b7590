import Mathlib.Data.List.Lex
import Mathlib.Data.List.TakeWhile
import Mathlib.Data.UInt

/-! C strings, ordered by `strcmp`, and what a `char *` field may hold. -/
namespace KvStore

/-- The bytes before the terminating NUL. -/
structure CString where
  bytes : List UInt8
  nonzero : 0 ∉ bytes
  deriving DecidableEq

namespace CString

@[ext] theorem ext {s t : CString} (h : s.bytes = t.bytes) : s = t := by
  cases s; cases t; simp_all

/-- The string that starts at the head of a byte list and runs to its first NUL. -/
def read (bs : List UInt8) : CString :=
  ⟨bs.takeWhile (· ≠ 0), fun h => by simpa using List.mem_takeWhile_imp h⟩

/-- A string without NUL is read to its end. -/
theorem read_bytes (s : CString) : read s.bytes = s := by
  apply CString.ext
  apply List.takeWhile_eq_self_iff.mpr
  intro x hx
  have hne : x ≠ 0 := fun h => s.nonzero (h ▸ hx)
  simpa using hne

def empty : CString := ⟨[], by simp⟩

/-- `strlen`. -/
def length (s : CString) : ℕ := s.bytes.length

theorem read_cons {b : UInt8} (hb : b ≠ 0) (bs : List UInt8) :
    (read (b :: bs)).bytes = b :: (read bs).bytes := by simp [read, hb]

theorem read_zero_cons (bs : List UInt8) : read (0 :: bs) = empty := by
  apply CString.ext
  simp [read, empty]

/-- A string is read from its own bytes and the one behind them. -/
theorem read_congr {bs bs' : List UInt8} (h : ∀ j ≤ (read bs).length, bs'[j]? = bs[j]?) :
    read bs' = read bs := by
  induction bs generalizing bs' with
  | nil =>
    cases bs' with
    | nil => rfl
    | cons b' bs' => cases h 0 (Nat.zero_le _)
  | cons b bs ih =>
    cases bs' with
    | nil => cases h 0 (Nat.zero_le _)
    | cons b' bs' =>
      obtain rfl : b' = b := Option.some.inj (h 0 (Nat.zero_le _))
      by_cases hb : b' = 0
      · subst hb
        rw [read_zero_cons, read_zero_cons]
      · have hrest : read bs' = read bs := by
          apply ih
          intro j hj
          apply h (j + 1)
          rw [length, read_cons hb]
          exact Nat.succ_le_succ hj
        apply CString.ext
        rw [read_cons hb, read_cons hb, hrest]

/-- A NUL written into a string ends it there. -/
theorem length_read_set {bs : List UInt8} {i : ℕ} (h : i < (read bs).length) :
    (read (bs.set i 0)).length = i := by
  induction bs generalizing i with
  | nil => cases h
  | cons b bs ih =>
    by_cases hb : b = 0
    · subst hb
      rw [read_zero_cons] at h
      cases h
    · rw [length, read_cons hb] at h
      cases i with
      | zero => rw [List.set_cons_zero, read_zero_cons]; rfl
      | succ i =>
        rw [List.set_cons_succ, length, read_cons hb, List.length_cons, ← length,
          ih (Nat.lt_of_succ_lt_succ h)]

/-- Bytewise comparison as unsigned characters; the terminating NUL is below every byte. -/
def compareBytes : List UInt8 → List UInt8 → ℤ
  | [], [] => 0
  | [], b :: _ => -(b.toNat : ℤ)
  | a :: _, [] => a.toNat
  | a :: as, b :: bs => if a = b then compareBytes as bs else (a.toNat : ℤ) - b.toNat

def strcmp (s t : CString) : ℤ := compareBytes s.bytes t.bytes

instance : LinearOrder CString :=
  LinearOrder.lift' (fun s => s.bytes.map UInt8.toNat) (fun s t h => by
    apply ext
    exact List.map_injective_iff.mpr (fun a b hab => UInt8.toNat_inj.mp hab) h)

theorem toNat_pos_of_ne {a : UInt8} (h : a ≠ 0) : 0 < a.toNat := by
  rcases Nat.eq_zero_or_pos a.toNat with hz | hp
  · exact absurd (UInt8.toNat_inj.mp (by simpa using hz)) h
  · exact hp

/-- On strings without NUL the sign of the comparison is the lexicographic order. -/
theorem compareBytes_neg {s t : List UInt8} (hs : 0 ∉ s) (ht : 0 ∉ t) :
    compareBytes s t < 0 ↔ s.map UInt8.toNat < t.map UInt8.toNat := by
  induction s generalizing t with
  | nil =>
    cases t with
    | nil => simp [compareBytes]
    | cons b bs =>
      have hb : 0 < b.toNat := toNat_pos_of_ne (fun h => ht (by simp [h]))
      simp only [compareBytes, List.map_nil, List.map_cons, List.nil_lt_cons, iff_true]
      omega
  | cons a as ih =>
    cases t with
    | nil =>
      have ha : 0 < a.toNat := toNat_pos_of_ne (fun h => hs (by simp [h]))
      simp only [compareBytes, List.map_nil, List.map_cons, List.not_lt_nil, iff_false]
      omega
    | cons b bs =>
      have hs' : 0 ∉ as := fun h => hs (List.mem_cons_of_mem a h)
      have ht' : 0 ∉ bs := fun h => ht (List.mem_cons_of_mem b h)
      simp only [compareBytes, List.map_cons]
      split_ifs with hab
      · subst b
        rw [ih hs' ht', List.cons_lt_cons_iff]
        simp
      · have hne : a.toNat ≠ b.toNat := fun h => hab (UInt8.toNat_inj.mp h)
        rw [List.cons_lt_cons_iff]
        omega

theorem compareBytes_antisymm (s t : List UInt8) : compareBytes t s = -compareBytes s t := by
  induction s generalizing t with
  | nil => cases t <;> simp [compareBytes]
  | cons a as ih =>
    cases t with
    | nil => simp [compareBytes]
    | cons b bs =>
      simp only [compareBytes, eq_comm (a := b)]
      split_ifs
      · exact ih bs
      · omega

@[simp] theorem strcmp_neg (s t : CString) : strcmp s t < 0 ↔ s < t :=
  compareBytes_neg s.nonzero t.nonzero

@[simp] theorem strcmp_pos (s t : CString) : 0 < strcmp s t ↔ t < s := by
  rw [← strcmp_neg t s, strcmp, strcmp, compareBytes_antisymm s.bytes t.bytes]
  omega

@[simp] theorem strcmp_eq_zero (s t : CString) : strcmp s t = 0 ↔ s = t := by
  constructor
  · intro h
    have h1 : ¬ s < t := by rw [← strcmp_neg]; omega
    have h2 : ¬ t < s := by rw [← strcmp_pos]; omega
    exact le_antisymm (not_lt.mp h2) (not_lt.mp h1)
  · rintro rfl
    have h1 := (strcmp_neg s s).not.mpr (lt_irrefl s)
    have h2 := (strcmp_pos s s).not.mpr (lt_irrefl s)
    omega

end CString

/-- The addresses of a machine; `null` is the one that designates nothing. -/
abbrev Ptr := ℕ

def null : Ptr := 0

/-- What a `char *` field designates. -/
inductive CharPtr
  | uninit
  | null
  | str (s : CString)
  | freed
  deriving DecidableEq

/-- The values of a map as an engine stores them. -/
def strings (m : CString → Option CString) : CString → Option CharPtr :=
  fun k => (m k).map .str

theorem strings_update (m : CString → Option CString) (k : CString) (x : Option CString) :
    strings (Function.update m k x) = Function.update (strings m) k (x.map .str) := by
  funext j
  by_cases hj : j = k
  · simp [strings, hj]
  · simp [strings, hj]

@[simp] theorem isSome_strings (m : CString → Option CString) (k : CString) :
    (strings m k).isSome = (m k).isSome := Option.isSome_map

end KvStore
