import KvStore.Array.Model
import KvStore.Lib.Guarded

/-! The slots of the array engine. What the two scans find is said once in terms of the table;
each call then changes at most one slot, and the invariant below says what a slot may hold. -/
namespace KvStore
open KeyValue

namespace KvsArray

variable {a : KvsArray} {t : ℕ → ArrayItem} {k v : CString} {i j n : ℕ} {b : Bool}
  {m : ArrayAlloc}

/-- The scan for a key goes on behind a slot. -/
def Passes (checked : Bool) (k : CString) : CharPtr → Prop
  | .str s => s ≠ k
  | .null => checked = true
  | .uninit => False
  | .freed => False

/-- Where the scan stops, and what it went past before. -/
theorem scan_spec (hn : i + n ≤ kvsArraySize) :
    match scan b t k i n with
    | some (some j) => j < i + n ∧ (t j).key = .str k ∧ ∀ l, i ≤ l → l < j → Passes b k (t l).key
    | some none => ∀ l, i ≤ l → l < i + n → Passes b k (t l).key
    | none => ∃ j, j < i + n ∧ ¬ Passes b k (t j).key ∧ ∀ l, i ≤ l → l ≤ j → (t l).key ≠ .str k := by
  induction n generalizing i with
  | zero =>
    intro l hl hl'
    omega
  | succ n ih =>
    have hi : ¬ kvsArraySize ≤ i := by omega
    have hnext := ih (i := i + 1) (by omega)
    -- slot `i` passes in the first two cases and stops the scan in the others
    have hgo : Passes b k (t i).key → (t i).key ≠ .str k →
        match scan b t k (i + 1) n with
        | some (some j) => j < i + (n + 1) ∧ (t j).key = .str k ∧
            ∀ l, i ≤ l → l < j → Passes b k (t l).key
        | some none => ∀ l, i ≤ l → l < i + (n + 1) → Passes b k (t l).key
        | none => ∃ j, j < i + (n + 1) ∧ ¬ Passes b k (t j).key ∧
            ∀ l, i ≤ l → l ≤ j → (t l).key ≠ .str k := by
      intro hp hk
      revert hnext
      cases scan b t k (i + 1) n with
      | none =>
        rintro ⟨j, hj, hpj, hl⟩
        refine ⟨j, by omega, hpj, ?_⟩
        intro l hil hlj
        by_cases hli : l = i
        · rwa [hli]
        · exact hl l (by omega) hlj
      | some r =>
        cases r with
        | none =>
          intro hl l hil hln
          by_cases hli : l = i
          · rwa [hli]
          · exact hl l (by omega) (by omega)
        | some j =>
          rintro ⟨hj, hkj, hl⟩
          refine ⟨by omega, hkj, ?_⟩
          intro l hil hlj
          by_cases hli : l = i
          · rwa [hli]
          · exact hl l (by omega) hlj
    rw [scan, if_neg hi]
    cases hkey : (t i).key with
    | str s =>
      by_cases hs : s = k
      · simp only [hs, CString.strcmp_eq_zero, if_true]
        refine ⟨by omega, by rw [hkey, hs], ?_⟩
        intro l hil hli
        omega
      · simpa [hs] using hgo (by rw [hkey]; exact hs) (by simp [hkey, hs])
    | null =>
      cases b with
      | true => simpa using hgo (by rw [hkey]; rfl) (by simp [hkey])
      | false =>
        refine ⟨i, by omega, by simp [hkey, Passes], ?_⟩
        intro l hil hli
        rw [le_antisymm hli hil, hkey]
        simp
    | uninit =>
      refine ⟨i, by omega, by simp [hkey, Passes], ?_⟩
      intro l hil hli
      rw [le_antisymm hli hil, hkey]
      simp
    | freed =>
      refine ⟨i, by omega, by simp [hkey, Passes], ?_⟩
      intro l hil hli
      rw [le_antisymm hli hil, hkey]
      simp

theorem scanHole_spec (hn : i + n ≤ kvsArraySize)
    (ht : ∀ l, i ≤ l → l < i + n → (t l).key ≠ .uninit ∧ (t l).key ≠ .freed) :
    (∃ j, j < i + n ∧ (t j).key = .null ∧ scanHole t i n = some (some j)) ∨
    ((∀ l, i ≤ l → l < i + n → (t l).key ≠ .null) ∧ scanHole t i n = some none) := by
  induction n generalizing i with
  | zero =>
    right
    refine ⟨?_, rfl⟩
    intro l hl hl'
    omega
  | succ n ih =>
    have hi : ¬ kvsArraySize ≤ i := by omega
    rw [scanHole, if_neg hi]
    cases hkey : (t i).key with
    | str s =>
      obtain ⟨j, hj, hnull, he⟩ | ⟨hno, he⟩ := ih (i := i + 1) (by omega) (by
        intro l hl hl'
        exact ht l (by omega) (by omega))
      · exact .inl ⟨j, by omega, hnull, he⟩
      · right
        refine ⟨?_, he⟩
        intro l hil hln
        by_cases hli : l = i
        · rw [hli, hkey]
          simp
        · exact hno l (by omega) (by omega)
    | null => exact .inl ⟨i, by omega, hkey, rfl⟩
    | uninit => exact absurd hkey (ht i le_rfl (by omega)).1
    | freed => exact absurd hkey (ht i le_rfl (by omega)).2

/-- Some slot below `total` has the key. -/
def Held (a : KvsArray) (k : CString) : Prop := ∃ i < a.total, (a.table i).key = .str k

/-- Before it comes to the key, the scan meets no slot that was never written and, without the
check for `NULL`, no hole. -/
def Unobstructed (checked : Bool) (a : KvsArray) (k : CString) : Prop :=
  ∀ i < a.total, (∀ j ≤ i, (a.table j).key ≠ .str k) →
    (a.table i).key ≠ .uninit ∧ (checked = false → (a.table i).key ≠ .null)

/-- The mutex is free, `total` fits the table, every slot is unwritten, a hole, or a live pair
below `total`, and no key occurs twice. -/
structure Tidy (a : KvsArray) : Prop where
  unlocked : a.locked = false
  bound : a.total ≤ kvsArraySize
  slots : ∀ i, a.table i = .unwritten ∨ a.table i = .hole ∨
    (i < a.total ∧ ∃ k v, a.table i = .live k v)
  distinct : ∀ i j k, (a.table i).key = .str k → (a.table j).key = .str k → i = j

theorem Tidy.create : kvsArrayCreate.Tidy := by
  refine ⟨rfl, by decide, fun i => .inl rfl, ?_⟩
  intro i j k hi
  cases hi

theorem Tidy.live_of_key (ha : a.Tidy) (hk : (a.table i).key = .str k) :
    i < a.total ∧ ∃ v, a.table i = .live k v := by
  obtain h | h | ⟨hi, k', v, h⟩ := ha.slots i
  · rw [h] at hk
    cases hk
  · rw [h] at hk
    cases hk
  · rw [h] at hk
    cases hk
    exact ⟨hi, v, h⟩

theorem Tidy.key_ne_freed (ha : a.Tidy) (i : ℕ) : (a.table i).key ≠ .freed := by
  obtain h | h | ⟨-, k', v, h⟩ := ha.slots i
  · simp [h, ArrayItem.unwritten]
  · simp [h, ArrayItem.hole]
  · simp [h, ArrayItem.live]

theorem Passes.ne {c : CharPtr} (h : Passes b k c) :
    c ≠ .uninit ∧ (b = false → c ≠ .null) ∧ c ≠ .str k := by
  cases c with
  | uninit => exact h.elim
  | null => exact ⟨by simp, fun hb => absurd h (by simp [hb, Passes]), by simp⟩
  | str s => exact ⟨by simp, by simp, by simpa [Passes] using h⟩
  | freed => exact h.elim

/-- A scan that comes to an end was not obstructed. -/
theorem unobstructed_of_scan {r : Option ℕ} (hb : a.total ≤ kvsArraySize)
    (hs : scan b a.table k 0 a.total = some r) : Unobstructed b a k := by
  intro i hi hfirst
  have hspec := scan_spec (b := b) (t := a.table) (k := k) (i := 0) (n := a.total) (by omega)
  rw [hs] at hspec
  cases r with
  | none =>
    have hp := (hspec i (by omega) (by omega)).ne
    exact ⟨hp.1, hp.2.1⟩
  | some j =>
    obtain ⟨-, hkj, hl⟩ := hspec
    have hij : i < j := by
      by_contra hge
      exact hfirst j (by omega) hkj
    have hp := (hl i (by omega) hij).ne
    exact ⟨hp.1, hp.2.1⟩

/-- An unobstructed scan finds the key exactly when a slot has it. -/
theorem Tidy.scan (ha : a.Tidy) (hu : Unobstructed b a k) :
    (∃ i v, i < a.total ∧ a.table i = .live k v ∧
      KvsArray.scan b a.table k 0 a.total = some (some i)) ∨
    (¬ a.Held k ∧ KvsArray.scan b a.table k 0 a.total = some none) := by
  have hspec := scan_spec (b := b) (t := a.table) (k := k) (i := 0) (n := a.total)
    (by have := ha.bound; omega)
  cases hs : KvsArray.scan b a.table k 0 a.total with
  | none =>
    rw [hs] at hspec
    obtain ⟨j, hj, hstop, hfirst⟩ := hspec
    have hno := hu j (by omega) (fun l hl => hfirst l (by omega) hl)
    have hkj := hfirst j (by omega) le_rfl
    have hfreed := ha.key_ne_freed j
    revert hno hkj hfreed hstop
    cases (a.table j).key with
    | uninit => simp
    | null =>
      cases b with
      | true => simp [Passes]
      | false => simp
    | str s => simp [Passes]
    | freed => simp
  | some r =>
    rw [hs] at hspec
    cases r with
    | none =>
      right
      refine ⟨?_, rfl⟩
      rintro ⟨i, hi, hk⟩
      exact (hspec i (by omega) (by omega)).ne.2.2 hk
    | some i =>
      obtain ⟨-, hk, -⟩ := hspec
      obtain ⟨hi, v, hv⟩ := ha.live_of_key hk
      exact .inl ⟨i, v, hi, hv, rfl⟩

/-- The array with a pair in slot `i` and one more slot in use. -/
def filled (a : KvsArray) (i : ℕ) (k v : CString) : KvsArray :=
  { a.setItem i (.live k v) with total := a.total + 1 }

/-- The array with a hole in slot `i`, where the last slot is given up. -/
def cleared (a : KvsArray) (i : ℕ) : KvsArray :=
  { a.setItem i .hole with total := if a.total - 1 = i then a.total - 1 else a.total }

/-- One slot is filled with a key that no slot has. -/
theorem Tidy.fill (ha : a.Tidy) (hk : ¬ a.Held k) (hi : i ≤ a.total)
    (hn : a.total < kvsArraySize) : Tidy (a.filled i k v) := by
  have hfree : ∀ j, (a.table j).key ≠ .str k :=
    fun j hj => hk ⟨j, (ha.live_of_key hj).1, hj⟩
  refine ⟨ha.unlocked, hn, ?_, ?_⟩
  · intro j
    by_cases hj : j = i
    · refine .inr (.inr ⟨by dsimp only [filled]; omega, k, v, ?_⟩)
      simp [filled, setItem, hj]
    · obtain h | h | ⟨hlt, hl⟩ := ha.slots j
      · exact .inl (by simpa [filled, setItem, hj] using h)
      · exact .inr (.inl (by simpa [filled, setItem, hj] using h))
      · exact .inr (.inr ⟨by dsimp only [filled]; omega, by simpa [filled, setItem, hj] using hl⟩)
  · intro j l k' hj hl
    dsimp only [filled, setItem] at hj hl
    by_cases hji : j = i
    · by_cases hli : l = i
      · rw [hji, hli]
      · rw [hji, Function.update_self] at hj
        rw [Function.update_of_ne hli] at hl
        cases hj
        exact absurd hl (hfree l)
    · rw [Function.update_of_ne hji] at hj
      by_cases hli : l = i
      · rw [hli, Function.update_self] at hl
        cases hl
        exact absurd hj (hfree j)
      · rw [Function.update_of_ne hli] at hl
        exact ha.distinct j l k' hj hl

theorem total_cleared (hi : i < a.total) :
    (a.cleared i).total ≤ a.total ∧ ∀ j < a.total, j ≠ i → j < (a.cleared i).total := by
  dsimp only [cleared]
  split_ifs with h
  · refine ⟨by omega, ?_⟩
    intro j hj hji
    omega
  · exact ⟨le_rfl, fun j hj _ => hj⟩

theorem Tidy.clear (ha : a.Tidy) (hi : i < a.total) : (a.cleared i).Tidy := by
  obtain ⟨hle, hlast⟩ := total_cleared hi
  refine ⟨ha.unlocked, hle.trans ha.bound, ?_, ?_⟩
  · intro j
    by_cases hj : j = i
    · exact .inr (.inl (by simp [cleared, setItem, hj]))
    · obtain h | h | ⟨hlt, hl⟩ := ha.slots j
      · exact .inl (by simpa [cleared, setItem, hj] using h)
      · exact .inr (.inl (by simpa [cleared, setItem, hj] using h))
      · exact .inr (.inr ⟨hlast j hlt hj, by simpa [cleared, setItem, hj] using hl⟩)
  · intro j l k' hj hl
    dsimp only [cleared, setItem] at hj hl
    by_cases hji : j = i
    · rw [hji, Function.update_self] at hj
      cases hj
    · by_cases hli : l = i
      · rw [hli, Function.update_self] at hl
        cases hl
      · rw [Function.update_of_ne hji] at hj
        rw [Function.update_of_ne hli] at hl
        exact ha.distinct j l k' hj hl

/-- A live pair gets another value. -/
theorem Tidy.replace {w : CString} (ha : a.Tidy) (hi : a.table i = .live k w) :
    Tidy (a.setItem i (.live k v)) := by
  have hkey : ∀ j, ((a.setItem i (.live k v)).table j).key = (a.table j).key := by
    intro j
    by_cases hj : j = i
    · simp [setItem, hj, hi, ArrayItem.live]
    · simp [setItem, hj]
  refine ⟨ha.unlocked, ha.bound, ?_, ?_⟩
  · intro j
    by_cases hj : j = i
    · have hlt : i < a.total := (ha.live_of_key (k := k) (by rw [hi]; rfl)).1
      exact .inr (.inr ⟨by rw [hj]; exact hlt, k, v, by simp [setItem, hj]⟩)
    · simpa [setItem, hj] using ha.slots j
  · intro j l k' hj hl
    rw [hkey] at hj hl
    exact ha.distinct j l k' hj hl

section Calls

/-! What a call with non-`NULL` arguments does when the mutex is free. -/

variable (ha : a.locked = false)
include ha

theorem kvsArraySet_eq (hb : a.total ≤ kvsArraySize) :
    kvsArraySet a m (some k) (some v) =
      if a.total = kvsArraySize then some (-1, a)
      else (scan true a.table k 0 a.total).bind fun found =>
        if found.isSome then some (1, a)
        else if m.key = false ∨ m.value = false then some (-2, a)
        else (scanHole a.table 0 a.total).map fun hole =>
          (0, a.filled (hole.getD a.total) k v) := by
  obtain ⟨t, n, locked⟩ := a
  obtain ⟨mk, mv⟩ := m
  cases ha
  simp only [kvsArraySet, lock, Bool.false_eq_true, if_false, Option.bind_some, unlock]
  by_cases hn : n = kvsArraySize
  · simp [hn]
  · have hlt : n < kvsArraySize := lt_of_le_of_ne hb hn
    simp only [hn, if_false]
    cases scan true t k 0 n with
    | none => rfl
    | some found =>
      cases found with
      | some j => rfl
      | none =>
        cases mk with
        | false => simp
        | true =>
          cases mv with
          | false => simp
          | true =>
            cases scanHole t 0 n with
            | none => simp
            | some hole =>
              cases hole with
              | none => simp [hlt, filled, setItem]
              | some j => simp [filled, setItem]

theorem kvsArrayGet_eq : kvsArrayGet a (some k) =
    (scan true a.table k 0 a.total).map fun found =>
      (found.elim .null fun i => (a.table i).value, a) := by
  obtain ⟨t, n, locked⟩ := a
  cases ha
  simp only [kvsArrayGet, lock, Bool.false_eq_true, if_false, Option.bind_some, unlock]
  cases scan true t k 0 n with
  | none => rfl
  | some found =>
    cases found with
    | none => rfl
    | some i => rfl

theorem kvsArrayDel_eq : kvsArrayDel a (some k) =
    (scan false a.table k 0 a.total).bind fun found =>
      match found with
      | none => some ((a.total : ℤ), a)
      | some i =>
        if (a.table i).value = .freed then none
        else some (0, a.cleared i) := by
  obtain ⟨t, n, locked⟩ := a
  cases ha
  simp only [kvsArrayDel, lock, Bool.false_eq_true, if_false, Option.bind_some, unlock]
  cases scan false t k 0 n with
  | none => rfl
  | some found =>
    cases found with
    | none => rfl
    | some i =>
      by_cases hv : (t i).value = .freed
      · simp [hv]
      · by_cases hi : n - 1 = i
        · simp [hv, hi, cleared, setItem]
        · simp [hv, hi, cleared, setItem]

theorem kvsArrayMod_eq : kvsArrayMod a b (some k) (some v) =
    if a.total = 0 then some ((kvsArraySize : ℤ), a)
    else (scan true a.table k 0 a.total).bind fun found =>
      match found with
      | none => some ((a.total : ℤ), a)
      | some i =>
        if (a.table i).value = .freed then none
        else if b = false then some (-2, a.setItem i { a.table i with value := .freed })
        else some (0, a.setItem i { a.table i with value := .str v }) := by
  obtain ⟨t, n, locked⟩ := a
  cases ha
  simp only [kvsArrayMod, lock, Bool.false_eq_true, if_false, Option.bind_some, unlock]
  by_cases hn : n = 0
  · simp [hn]
  · simp only [hn, if_false]
    cases scan true t k 0 n with
    | none => rfl
    | some found =>
      cases found with
      | none => rfl
      | some i =>
        cases b with
        | false => simp [setItem]
        | true => simp [setItem]

theorem kvsArrayExist_eq : kvsArrayExist a (some k) =
    (scan true a.table k 0 a.total).map fun found => (if found.isSome then 0 else 1, a) := by
  obtain ⟨t, n, locked⟩ := a
  cases ha
  simp only [kvsArrayExist, lock, Bool.false_eq_true, if_false, Option.bind_some, unlock]
  cases scan true t k 0 n with
  | none => rfl
  | some found =>
    cases found with
    | none => rfl
    | some i => rfl

end Calls

section Outcomes

/-! The outcomes of an unobstructed call on a tidy array. -/

variable (ha : a.Tidy)
include ha

theorem Tidy.set_cases (hu : Unobstructed true a k) :
    (a.total = kvsArraySize ∧ kvsArraySet a m (some k) (some v) = some (-1, a)) ∨
    (a.total < kvsArraySize ∧ a.Held k ∧ kvsArraySet a m (some k) (some v) = some (1, a)) ∨
    (a.total < kvsArraySize ∧ ¬ a.Held k ∧ ¬ (m.key = true ∧ m.value = true) ∧
      kvsArraySet a m (some k) (some v) = some (-2, a)) ∨
    (a.total < kvsArraySize ∧ ¬ a.Held k ∧ m.key = true ∧ m.value = true ∧
      ∃ i, (i < a.total ∧ (a.table i).key = .null ∨
          i = a.total ∧ ∀ l < a.total, (a.table l).key ≠ .null) ∧
        kvsArraySet a m (some k) (some v) = some (0, a.filled i k v)) := by
  rw [kvsArraySet_eq ha.unlocked ha.bound]
  by_cases hfull : a.total = kvsArraySize
  · exact .inl ⟨hfull, by rw [if_pos hfull]⟩
  have hlt := lt_of_le_of_ne ha.bound hfull
  rw [if_neg hfull]
  obtain ⟨i, w, hi, hlive, hs⟩ | ⟨hk, hs⟩ := ha.scan hu
  · exact .inr (.inl ⟨hlt, ⟨i, hi, by rw [hlive]; rfl⟩, by simp [hs]⟩)
  by_cases hm : m.key = true ∧ m.value = true
  · -- the scan for the key has gone over all slots, so all of them were written
    have hholes := scanHole_spec (t := a.table) (i := 0) (n := a.total) (by omega)
      (fun l _ hl => ⟨(hu l (by omega) fun j hj he => hk ⟨j, by omega, he⟩).1, ha.key_ne_freed l⟩)
    rw [zero_add] at hholes
    refine .inr (.inr (.inr ⟨hlt, hk, hm.1, hm.2, ?_⟩))
    obtain ⟨j, hj, hnull, hh⟩ | ⟨hno, hh⟩ := hholes
    · exact ⟨j, .inl ⟨hj, hnull⟩, by simp [hs, hm, hh]⟩
    · exact ⟨a.total, .inr ⟨rfl, fun l => hno l (Nat.zero_le l)⟩, by simp [hs, hm, hh]⟩
  · refine .inr (.inr (.inl ⟨hlt, hk, hm, ?_⟩))
    have hm' : m.key = false ∨ m.value = false := by
      rw [not_and_or] at hm
      simpa using hm
    simp [hs, hm']

theorem Tidy.get_cases (hu : Unobstructed true a k) :
    (∃ i v, i < a.total ∧ a.table i = .live k v ∧ kvsArrayGet a (some k) = some (.str v, a)) ∨
    (¬ a.Held k ∧ kvsArrayGet a (some k) = some (.null, a)) := by
  rw [kvsArrayGet_eq ha.unlocked]
  obtain ⟨i, w, hi, hlive, hs⟩ | ⟨hk, hs⟩ := ha.scan hu
  · exact .inl ⟨i, w, hi, hlive, by simp [hs, hlive, ArrayItem.live]⟩
  · exact .inr ⟨hk, by simp [hs]⟩

theorem Tidy.exist_cases (hu : Unobstructed true a k) :
    (a.Held k ∧ kvsArrayExist a (some k) = some (0, a)) ∨
    (¬ a.Held k ∧ kvsArrayExist a (some k) = some (1, a)) := by
  rw [kvsArrayExist_eq ha.unlocked]
  obtain ⟨i, w, hi, hlive, hs⟩ | ⟨hk, hs⟩ := ha.scan hu
  · exact .inl ⟨⟨i, hi, by rw [hlive]; rfl⟩, by simp [hs]⟩
  · exact .inr ⟨hk, by simp [hs]⟩

theorem Tidy.del_cases (hu : Unobstructed false a k) :
    (∃ i v, i < a.total ∧ a.table i = .live k v ∧
      kvsArrayDel a (some k) = some (0, a.cleared i)) ∨
    (¬ a.Held k ∧ kvsArrayDel a (some k) = some ((a.total : ℤ), a)) := by
  rw [kvsArrayDel_eq ha.unlocked]
  obtain ⟨i, w, hi, hlive, hs⟩ | ⟨hk, hs⟩ := ha.scan hu
  · exact .inl ⟨i, w, hi, hlive, by simp [hs, hlive, ArrayItem.live]⟩
  · exact .inr ⟨hk, by simp [hs]⟩

theorem Tidy.mod_cases (hu : Unobstructed true a k) :
    (∃ i w, i < a.total ∧ a.table i = .live k w ∧ b = true ∧
      kvsArrayMod a b (some k) (some v) = some (0, a.setItem i (.live k v))) ∨
    (∃ i w, i < a.total ∧ a.table i = .live k w ∧ b = false ∧
      kvsArrayMod a b (some k) (some v) = some (-2, a.setItem i ⟨.str k, .freed⟩)) ∨
    (¬ a.Held k ∧ ∃ c : ℤ, 0 < c ∧ kvsArrayMod a b (some k) (some v) = some (c, a)) := by
  rw [kvsArrayMod_eq ha.unlocked]
  by_cases hn : a.total = 0
  · refine .inr (.inr ⟨?_, kvsArraySize, by decide, by rw [if_pos hn]⟩)
    rintro ⟨i, hi, -⟩
    omega
  rw [if_neg hn]
  obtain ⟨i, w, hi, hlive, hs⟩ | ⟨hk, hs⟩ := ha.scan hu
  · cases b with
    | true => exact .inl ⟨i, w, hi, hlive, rfl, by simp [hs, hlive, ArrayItem.live]⟩
    | false => exact .inr (.inl ⟨i, w, hi, hlive, rfl, by simp [hs, hlive, ArrayItem.live]⟩)
  · exact .inr (.inr ⟨hk, a.total, by omega, by simp [hs]⟩)

end Outcomes

end KvsArray
end KvStore
