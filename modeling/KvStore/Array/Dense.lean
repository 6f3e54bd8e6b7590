import KvStore.Array.Map
import Mathlib.Data.Finset.Card

/-! The array engine while nothing is deleted: the slots below `total` are one live pair for each
key of the map, so a bound on the keys bounds `total`. -/
namespace KvStore
open KeyValue

namespace KvsArray

variable {a : KvsArray} {m : CString → Option CString} {k v : CString}

/-- The array holds the map without a hole. -/
structure Dense (a : KvsArray) (m : CString → Option CString) : Prop extends Tidy a where
  stores : a.Stores m
  live : ∀ i < a.total, ∃ k v, a.table i = .live k v

theorem Dense.create : kvsArrayCreate.Dense fun _ => none := by
  refine ⟨.create, ?_, ?_⟩
  · intro k v
    simp [kvsArrayCreate, ArrayItem.unwritten, ArrayItem.live]
  · intro i hi
    exact absurd hi (Nat.not_lt_zero i)

theorem Dense.unobstructed (ha : a.Dense m) (b : Bool) (k : CString) : Unobstructed b a k := by
  intro i hi _
  obtain ⟨k', v', h⟩ := ha.live i hi
  simp [h, ArrayItem.live]

theorem Dense.get (ha : a.Dense m) (k : CString) :
    kvsArrayGet a (some k) = some ((m k).elim .null .str, a) :=
  Tracks.get ha.toTidy ha.stores (ha.unobstructed true k)

theorem Dense.set {p : ArrayAlloc} (ha : a.Dense m) (hp : p = ⟨true, true⟩)
    (hn : a.total < kvsArraySize) (k v : CString) :
    ∃ a', kvsArraySet a p (some k) (some v) = some (if (m k).isSome then 1 else 0, a') ∧
      a'.Dense (next m (.set k v)) ∧ a'.total ≤ a.total + 1 := by
  have hkm := ha.stores.held_iff ha.toTidy (k := k)
  obtain ⟨he, -⟩ | ⟨-, hk, hs⟩ | ⟨-, -, hno, -⟩ | ⟨-, hk, -, -, i, hi, hs⟩ :=
    ha.toTidy.set_cases (m := p) (v := v) (ha.unobstructed true k)
  · omega
  · refine ⟨a, by rw [hs, if_pos (hkm.mp hk)], ?_, Nat.le_succ _⟩
    rwa [next, if_pos (hkm.mp hk)]
  · rw [hp] at hno
    exact absurd ⟨rfl, rfl⟩ hno
  · -- no slot is a hole, so the pair goes behind the last one
    obtain rfl : i = a.total := by
      obtain ⟨hlt, hnull⟩ | ⟨he, -⟩ := hi
      · obtain ⟨k', v', h⟩ := ha.live i hlt
        simp [h, ArrayItem.live] at hnull
      · exact he
    refine ⟨a.filled a.total k v, by rw [hs, if_neg (hkm.not.mp hk)], ?_, le_rfl⟩
    rw [next, if_neg (hkm.not.mp hk)]
    refine ⟨ha.toTidy.fill hk le_rfl hn, ?_, ?_⟩
    · apply ha.stores.fill ha.toTidy hk
      intro k' v' hlive
      have hlt := (ha.toTidy.live_of_key (i := a.total) (k := k') (by rw [hlive]; rfl)).1
      omega
    · intro j hj
      dsimp only [filled, setItem] at hj ⊢
      by_cases hja : j = a.total
      · exact ⟨k, v, by rw [hja, Function.update_self]⟩
      · rw [Function.update_of_ne hja]
        exact ha.live j (by omega)

/-- The slot that the key of a live pair stands in is its only one. -/
theorem card_le_of_keys (ha : a.Tidy) {K : Finset CString} {n : ℕ}
    (hkey : ∀ i < n, ∃ k ∈ K, (a.table i).key = .str k) : n ≤ K.card := by
  have : Nonempty CString := ⟨.empty⟩
  choose! f hf using hkey
  have hcard : (Finset.range n).card ≤ K.card := by
    apply Finset.card_le_card_of_injOn f
    · exact fun i hi => (hf i (Finset.mem_range.mp hi)).1
    · intro i hi j hj he
      have hi' := (hf i (Finset.mem_range.mp hi)).2
      rw [he] at hi'
      exact ha.distinct i j _ hi' (hf j (Finset.mem_range.mp hj)).2
  rwa [Finset.card_range] at hcard

theorem Dense.total_le (ha : a.Dense m) {K : Finset CString} (hK : ∀ k, (m k).isSome → k ∈ K) :
    a.total ≤ K.card := by
  apply card_le_of_keys ha.toTidy
  intro i hi
  obtain ⟨k, v, h⟩ := ha.live i hi
  have hkey : (a.table i).key = .str k := by rw [h]; rfl
  exact ⟨k, hK k ((ha.stores.held_iff ha.toTidy).mp ⟨i, hi, hkey⟩), hkey⟩

theorem Dense.exist (ha : a.Dense m) (k : CString) :
    kvsArrayExist a (some k) = some (if (m k).isSome then 0 else 1, a) :=
  Tracks.exist ha.toTidy ha.stores (ha.unobstructed true k)

/-- `kvs_array_mod` tells whether the key is there, and leaves no hole. -/
theorem Dense.mod (ha : a.Dense m) (k v : CString) :
    ∃ c a', kvsArrayMod a true (some k) (some v) = some (c, a') ∧
      (if (m k).isSome then c = 0 else 0 < c) ∧ a'.Dense (next m (.mod k v)) := by
  obtain ⟨i, w, hi, hlive, -, hs⟩ | ⟨i, w, -, -, hno, -⟩ | ⟨hk, c, hc, hs⟩ :=
    ha.toTidy.mod_cases (b := true) (v := v) (ha.unobstructed true k)
  · have hsome := (ha.stores.held_iff ha.toTidy).mp ⟨i, hi, by rw [hlive]; rfl⟩
    refine ⟨0, a.setItem i (.live k v), hs, by rw [if_pos hsome], ?_⟩
    rw [next, if_pos hsome]
    refine ⟨ha.toTidy.replace hlive, ha.stores.replace ha.toTidy hlive, fun j hj => ?_⟩
    dsimp only [setItem] at hj ⊢
    by_cases hji : j = i
    · exact ⟨k, v, by rw [hji, Function.update_self]⟩
    · rw [Function.update_of_ne hji]
      exact ha.live j hj
  · cases hno
  · have hsome := (ha.stores.held_iff ha.toTidy).not.mp hk
    refine ⟨c, a, hs, by rwa [if_neg hsome], ?_⟩
    rwa [next, if_neg hsome]

/-- There are as many keys as slots in use. -/
theorem Dense.exists_keys (ha : a.Dense m) :
    ∃ K : Finset CString, K.card = a.total ∧ ∀ k, (m k).isSome ↔ k ∈ K := by
  have : Nonempty CString := ⟨.empty⟩
  choose! key value hlive using ha.live
  have hkey : ∀ i < a.total, (a.table i).key = .str (key i) := by
    intro i hi
    rw [hlive i hi]
    rfl
  refine ⟨(Finset.range a.total).image key, ?_, fun k => ?_⟩
  · rw [Finset.card_image_of_injOn, Finset.card_range]
    intro i hi j hj he
    have hi' := hkey i (Finset.mem_range.mp hi)
    rw [he] at hi'
    exact ha.distinct i j _ hi' (hkey j (Finset.mem_range.mp hj))
  · rw [← ha.stores.held_iff ha.toTidy, Finset.mem_image]
    constructor
    · rintro ⟨i, hi, hk⟩
      exact ⟨i, Finset.mem_range.mpr hi, CharPtr.str.inj ((hkey i hi).symm.trans hk)⟩
    · rintro ⟨i, hi, rfl⟩
      exact ⟨i, Finset.mem_range.mp hi, hkey i (Finset.mem_range.mp hi)⟩

theorem Dense.total_eq_zero_iff (ha : a.Dense m) : a.total = 0 ↔ ∀ k, m k = none := by
  obtain ⟨K, hcard, hK⟩ := ha.exists_keys
  rw [← hcard, Finset.card_eq_zero, Finset.eq_empty_iff_forall_notMem]
  refine forall_congr' fun k => ?_
  rw [← hK, Option.not_isSome_iff_eq_none]

end KvsArray

/-- The array has no slot left for a key. -/
def Full (m : CString → Option CString) : Prop :=
  ∃ K : Finset CString, K.card = kvsArraySize ∧ ∀ k ∈ K, (m k).isSome

theorem KvsArray.Dense.full_iff {a : KvsArray} {m : CString → Option CString} (ha : a.Dense m) :
    Full m ↔ a.total = kvsArraySize := by
  obtain ⟨K, hcard, hK⟩ := ha.exists_keys
  constructor
  · rintro ⟨K', hcard', hK'⟩
    have hle := Finset.card_le_card fun k hk => (hK k).mp (hK' k hk)
    have hbound := ha.bound
    omega
  · intro hfull
    exact ⟨K, hcard.trans hfull, fun k hk => (hK k).mpr hk⟩

end KvStore
