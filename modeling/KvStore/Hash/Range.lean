import KvStore.Hash.Map
import Mathlib.Data.Int.ModEq
import Mathlib.Tactic.Ring

/-! The index of a key over all byte values. A byte from 128 on is a negative `char`, so that the
sum of a key is the sum of its bytes less 256 for each of these. -/
namespace KvStore

namespace HashTable

variable {k : CString} {h : HashTable}

def byteSum (k : CString) : ℕ := (k.bytes.map UInt8.toNat).sum

/-- The bytes that are negative as a `char`. -/
def highBytes (k : CString) : ℕ := k.bytes.countP (128 ≤ ·)

/-- The bytes outweigh what the high ones take away, or the two differ by whole tables. -/
def SumsInside (k : CString) : Prop :=
  256 * highBytes k ≤ byteSum k ∨ 256 * highBytes k ≡ byteSum k [MOD maxTableSize]

instance : DecidablePred SumsInside := fun _ => inferInstanceAs (Decidable (_ ∨ _))

theorem charValue_eq (b : UInt8) :
    charValue b = b.toNat - 256 * ((if 128 ≤ b then 1 else 0 : ℕ) : ℤ) := by
  rw [charValue]
  by_cases hb : b < 128
  · rw [if_pos hb, if_neg (UInt8.not_le.mpr hb)]
    simp
  · rw [if_neg hb, if_pos (UInt8.not_lt.mp hb)]
    simp

theorem charValue_bounds (b : UInt8) : -128 ≤ charValue b ∧ charValue b ≤ 127 := by
  have hsize : b.toNat < 256 := b.toNat_lt
  rw [charValue]
  split_ifs with hb
  · have hn : b.toNat < 128 := UInt8.lt_iff_toNat_lt.mp hb
    omega
  · have hn : 128 ≤ b.toNat := UInt8.le_iff_toNat_le.mp (UInt8.not_lt.mp hb)
    omega

/-- The running sum of a short key does not wrap. -/
theorem hash_sum_eq {bs : List UInt8} {acc : ℤ} (hlow : -2 ^ 31 ≤ acc - 128 * bs.length)
    (hhigh : acc + 127 * bs.length < 2 ^ 31) :
    bs.foldl (fun sum b => (sum + charValue b).bmod (2 ^ 32)) acc =
      acc + ((bs.map UInt8.toNat).sum : ℕ) - 256 * (bs.countP (128 ≤ ·) : ℕ) := by
  induction bs generalizing acc with
  | nil => simp
  | cons b bs ih =>
    obtain ⟨hmin, hmax⟩ := charValue_bounds b
    rw [List.length_cons, Nat.cast_succ] at hlow hhigh
    have hmod : (acc + charValue b).bmod (2 ^ 32) = acc + charValue b := by
      apply Int.bmod_eq_of_le
      · omega
      · omega
    rw [List.foldl_cons, hmod, ih (by omega) (by omega), charValue_eq, List.map_cons,
      List.sum_cons, List.countP_cons]
    simp only [decide_eq_true_eq]
    push_cast
    ring

theorem hash_eq (hlen : k.length ≤ 1024) (size : ℤ) :
    hash k size = ((byteSum k : ℤ) - 256 * highBytes k).tmod size := by
  rw [CString.length] at hlen
  rw [hash, hash_sum_eq (by omega) (by omega), zero_add]
  rfl

/-- A remainder of the C operator is an index when it is not negative. -/
theorem inRange_iff (hlen : k.length ≤ 1024) : InRange k ↔ SumsInside k := by
  have hsize : (0 : ℤ) < maxTableSize := by decide
  have hdvd : ((maxTableSize : ℤ) ∣ (byteSum k : ℤ) - 256 * highBytes k) ↔
      256 * highBytes k ≡ byteSum k [MOD maxTableSize] := by
    rw [Nat.modEq_iff_dvd]
    push_cast
    rfl
  rw [InRange, SumsInside, hash_eq hlen, and_iff_left (Int.tmod_lt_of_pos _ hsize), ← hdvd]
  constructor
  · intro hnonneg
    by_contra hno
    obtain ⟨hneg, hndvd⟩ := not_or.mp hno
    have hflip := Int.tmod_nonneg (maxTableSize : ℤ)
      (show 0 ≤ -((byteSum k : ℤ) - 256 * highBytes k) by omega)
    rw [Int.neg_tmod] at hflip
    exact hndvd (Int.dvd_of_tmod_eq_zero (le_antisymm (by omega) hnonneg))
  · rintro (hle | hdiv)
    · apply Int.tmod_nonneg
      omega
    · exact (Int.tmod_eq_zero_of_dvd hdiv).ge

/-- A key of 7-bit characters belongs to a slot. -/
theorem inRange_of_ascii (hb : ∀ b ∈ k.bytes, b < 128) (hlen : k.length ≤ 1024) : InRange k := by
  have hnone : highBytes k = 0 := by
    apply List.countP_eq_zero.mpr
    intro b hk
    simpa using hb b hk
  rw [inRange_iff hlen, SumsInside, hnone]
  exact .inl (Nat.zero_le _)

theorem chainOf_isSome (hchained : ∀ i, (h.nodes i).isSome) (hk : InRange k) :
    (h.chainOf k).isSome := by
  obtain ⟨i, hslot, -⟩ := hk.slot
  obtain ⟨chain, hchain⟩ := Option.isSome_iff_exists.mp (hchained i)
  simp [chainOf, hslot, hchain]

/-- The four calls with the key stay in the table. -/
structure CallsReturn (h : HashTable) (k : CString) : Prop where
  set : ∀ v, (kvsHashSet h ⟨true, true, true⟩ (some k) (some v)).isSome
  get : (kvsHashGet h (some k)).isSome
  mod : ∀ room v, (kvsHashMod h room (some k) (some v)).isSome
  del : (kvsHashDel h (some k)).isSome

theorem callsReturn_iff : h.CallsReturn k ↔ (h.chainOf k).isSome := by
  cases hchain : h.chainOf k with
  | none =>
    refine iff_of_false (fun hcalls => ?_) (by simp)
    have hget := hcalls.get
    simp [kvsHashGet, hchain] at hget
  | some r =>
    obtain ⟨i, chain⟩ := r
    refine iff_of_true ⟨fun v => ?_, ?_, fun room v => ?_, ?_⟩ rfl
    · simp only [kvsHashSet, hchain, Option.bind_some]
      cases locate k chain with
      | none => simp [createNode]
      | some r => rfl
    · simp only [kvsHashGet, hchain, Option.bind_some]
      cases locate k chain with
      | none => rfl
      | some r => rfl
    · simp only [kvsHashMod, hchain, Option.bind_some]
      cases locate k chain with
      | none => rfl
      | some r => cases room <;> rfl
    · simp only [kvsHashDel, hchain, Option.bind_some]
      cases chain with
      | nil => rfl
      | cons head next =>
        dsimp only
        split_ifs
        · rfl
        · cases locate k next with
          | none => rfl
          | some r => rfl

end HashTable

open HashTable

/-- A key stays in the table, and so does every call with it, exactly when its bytes outweigh the
high ones or differ from them by whole tables. -/
theorem hash_in_table_iff {key : CString} (hlen : key.length ≤ 1024) :
    (InRange key ∧ ∀ h : HashTable, (∀ i, (h.nodes i).isSome) → h.CallsReturn key) ↔
      SumsInside key := by
  rw [← inRange_iff hlen]
  constructor
  · exact And.left
  · intro hk
    exact ⟨hk, fun h hchained => callsReturn_iff.mpr (chainOf_isSome hchained hk)⟩

/-- A word with one letter of two high bytes among four plain ones. -/
theorem hash_in_table_iff_mixed :
    InRange (.read [110, 97, 195, 175, 118, 101]) ∧
      ∀ h : HashTable, (∀ i, (h.nodes i).isSome) → h.CallsReturn (.read [110, 97, 195, 175, 118, 101]) :=
  (hash_in_table_iff (by decide)).mpr (by decide)

/-- The two bytes of one letter have the index `-148`. -/
theorem hash_of_letter : ¬ ∀ key : CString, key.length ≤ 1024 →
    InRange key ∧ ∀ h : HashTable, (∀ i, (h.nodes i).isSome) → h.CallsReturn key := by
  intro hall
  have hrange := (hall (.read [195, 169]) (by decide)).1
  have hindex : HashTable.hash (.read [195, 169]) maxTableSize = -148 := by decide
  rw [InRange, hindex] at hrange
  exact absurd hrange.1 (by decide)

end KvStore
