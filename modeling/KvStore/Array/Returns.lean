import KvStore.Array.Slots

/-! When a call of the array engine comes back, from whatever state the calls before have left, and
what it leaves itself. A `mod` without memory leaves a key whose value was released. -/
namespace KvStore

namespace KvsArray

variable {a a' : KvsArray} {k v : CString} {key value : Option CString} {x : ArrayItem} {i : ℕ}
  {b room : Bool} {m : ArrayAlloc}

/-- `total` fits the table, no key was released, and a key has a value, or one that was released. -/
structure Coherent (a : KvsArray) : Prop where
  bound : a.total ≤ kvsArraySize
  key : ∀ i, (a.table i).key ≠ .freed
  value : ∀ i k, (a.table i).key = .str k →
    (a.table i).value = .freed ∨ ∃ v, (a.table i).value = .str v

theorem Coherent.create : kvsArrayCreate.Coherent := by
  refine ⟨by decide, fun i => nofun, ?_⟩
  intro i k hk
  cases hk

/-- A slot that a call may write. -/
def ArrayItem.Coherent (x : ArrayItem) : Prop :=
  x.key ≠ .freed ∧ ∀ k, x.key = .str k → x.value = .freed ∨ ∃ v, x.value = .str v

theorem ArrayItem.Coherent.live (k v : CString) : ArrayItem.Coherent (.live k v) :=
  ⟨nofun, fun _ _ => .inr ⟨v, rfl⟩⟩

theorem ArrayItem.Coherent.hole : ArrayItem.Coherent .hole := by
  refine ⟨nofun, fun k hk => ?_⟩
  cases hk

theorem Coherent.setItem (h : a.Coherent) (i : ℕ) (hx : ArrayItem.Coherent x) :
    (a.setItem i x).Coherent := by
  refine ⟨h.bound, fun j => ?_, fun j => ?_⟩
  · by_cases hj : j = i
    · simpa [KvsArray.setItem, hj] using hx.1
    · simpa [KvsArray.setItem, hj] using h.key j
  · by_cases hj : j = i
    · simpa [KvsArray.setItem, hj] using hx.2
    · simpa [KvsArray.setItem, hj] using h.value j

theorem Coherent.resize (h : a.Coherent) {n : ℕ} (hn : n ≤ kvsArraySize) (locked : Bool) :
    Coherent ⟨a.table, n, locked⟩ := ⟨hn, h.key, h.value⟩

/-- Slot `i` is the first one below `total` with the key. -/
def FirstAt (a : KvsArray) (k : CString) (i : ℕ) : Prop :=
  i < a.total ∧ (a.table i).key = .str k ∧ ∀ j < i, (a.table j).key ≠ .str k

/-- The value of the key was released, and none put in its place. -/
def Lost (a : KvsArray) (k : CString) : Prop := ∃ i, a.FirstAt k i ∧ (a.table i).value = .freed

theorem not_lost_of_passes (h : ∀ i < a.total, Passes b k (a.table i).key) : ¬ a.Lost k := by
  rintro ⟨i, ⟨hi, hk, -⟩, -⟩
  exact (h i hi).ne.2.2 hk

theorem FirstAt.unique {j : ℕ} (hi : a.FirstAt k i) (hj : a.FirstAt k j) : i = j := by
  obtain hlt | heq | hgt := Nat.lt_trichotomy i j
  · exact absurd hi.2.1 (hj.2.2 i hlt)
  · exact heq
  · exact absurd hj.2.1 (hi.2.2 j hgt)

theorem FirstAt.lost_iff (hi : a.FirstAt k i) : a.Lost k ↔ (a.table i).value = .freed := by
  constructor
  · rintro ⟨j, hj, hv⟩
    exact hi.unique hj ▸ hv
  · intro hv
    exact ⟨i, hi, hv⟩

/-- The scan comes to an end exactly when it is not obstructed. -/
theorem Coherent.scan_cases (h : a.Coherent) (b : Bool) (k : CString) :
    (¬ Unobstructed b a k ∧ scan b a.table k 0 a.total = none) ∨
    (Unobstructed b a k ∧ (∀ i < a.total, Passes b k (a.table i).key) ∧
      scan b a.table k 0 a.total = some none) ∨
    (Unobstructed b a k ∧ ∃ i, a.FirstAt k i ∧ scan b a.table k 0 a.total = some (some i)) := by
  have hspec := scan_spec (b := b) (t := a.table) (k := k) (i := 0) (n := a.total)
    (by have := h.bound; omega)
  cases hs : scan b a.table k 0 a.total with
  | none =>
    refine .inl ⟨?_, rfl⟩
    intro hu
    rw [hs] at hspec
    obtain ⟨j, hj, hstop, hfirst⟩ := hspec
    have hno := hu j (by omega) fun l hl => hfirst l (Nat.zero_le l) hl
    have hkj := hfirst j (Nat.zero_le j) le_rfl
    have hfreed := h.key j
    revert hno hkj hfreed hstop
    cases (a.table j).key with
    | uninit => simp
    | null => cases b <;> simp [Passes]
    | str s => simp [Passes]
    | freed => simp
  | some r =>
    have hu := unobstructed_of_scan h.bound hs
    rw [hs] at hspec
    cases r with
    | none => exact .inr (.inl ⟨hu, fun i hi => hspec i (Nat.zero_le i) (by omega), rfl⟩)
    | some j =>
      obtain ⟨hj, hkj, hbefore⟩ := hspec
      rw [zero_add] at hj
      exact .inr (.inr ⟨hu, j, ⟨hj, hkj, fun l hl => (hbefore l (Nat.zero_le l) hl).ne.2.2⟩, rfl⟩)

/-- Both arguments are there, or one is missing. -/
theorem given_or_missing {α β : Type*} (key : Option α) (value : Option β) :
    (∃ k v, key = some k ∧ value = some v) ∨ (key = none ∨ value = none) := by
  cases key with
  | none => exact .inr (.inl rfl)
  | some k =>
    cases value with
    | none => exact .inr (.inr rfl)
    | some v => exact .inl ⟨k, v, rfl, rfl⟩

theorem Tidy.not_lost (ha : a.Tidy) (k : CString) : ¬ a.Lost k := by
  rintro ⟨i, ⟨-, hk, -⟩, hv⟩
  obtain ⟨-, v, hi⟩ := ha.live_of_key hk
  rw [hi] at hv
  cases hv

section Arguments

/-! A call without its arguments waits for the mutex all the same. -/

theorem kvsArraySet_refused (h : key = none ∨ value = none) :
    kvsArraySet a m key value = if a.locked then none else some (-1, a) := by
  obtain ⟨t, n, locked⟩ := a
  cases locked with
  | true => rfl
  | false =>
    cases key with
    | none => rfl
    | some k =>
      obtain h | rfl := h
      · cases h
      · rfl

theorem kvsArrayExist_refused :
    kvsArrayExist a none = if a.locked then none else some (-1, a) := by
  obtain ⟨t, n, locked⟩ := a
  cases locked with
  | true => rfl
  | false => rfl

theorem kvsArrayGet_refused :
    kvsArrayGet a none = if a.locked then none else some (.null, { a with locked := true }) := by
  obtain ⟨t, n, locked⟩ := a
  cases locked with
  | true => rfl
  | false => rfl

theorem kvsArrayDel_refused :
    kvsArrayDel a none = if a.locked then none else some (-1, { a with locked := true }) := by
  obtain ⟨t, n, locked⟩ := a
  cases locked with
  | true => rfl
  | false => rfl

theorem kvsArrayMod_refused (h : key = none ∨ value = none) : kvsArrayMod a room key value =
    if a.locked then none else some (-1, { a with locked := true }) := by
  obtain ⟨t, n, locked⟩ := a
  cases locked with
  | true => rfl
  | false =>
    cases key with
    | none => rfl
    | some k =>
      obtain h | rfl := h
      · cases h
      · rfl

end Arguments

/-- A call that comes back has got the mutex. -/
theorem locked_of_lock {β : Type*} {f : KvsArray → Option β} {r : β} (h : a.lock.bind f = some r) :
    a.locked = false := by
  rw [lock] at h
  split_ifs at h with hl
  · cases h
  · exact Bool.eq_false_of_not_eq_true hl

section Returns

variable (h : a.Coherent) (hl : a.locked = false)
include h hl

theorem Coherent.set_isSome_iff : (kvsArraySet a m (some k) (some v)).isSome ↔
    a.total = kvsArraySize ∨ Unobstructed true a k := by
  rw [kvsArraySet_eq hl h.bound]
  by_cases hfull : a.total = kvsArraySize
  · simp [hfull]
  rw [if_neg hfull, or_iff_right hfull]
  obtain ⟨hu, hs⟩ | ⟨hu, hall, hs⟩ | ⟨hu, i, -, hs⟩ := h.scan_cases true k
  · simp [hs, hu]
  · -- the scan went over every slot, so all of them were written
    have hholes := scanHole_spec (t := a.table) (i := 0) (n := a.total)
      (by have := h.bound; omega) fun l _ hlt => ⟨(hall l (by omega)).ne.1, h.key l⟩
    rw [zero_add] at hholes
    obtain ⟨j, -, -, hh⟩ | ⟨-, hh⟩ := hholes
    · by_cases hm : m.key = false ∨ m.value = false
      · simp [hs, hm, hu]
      · simp [hs, hm, hh, hu]
    · by_cases hm : m.key = false ∨ m.value = false
      · simp [hs, hm, hu]
      · simp [hs, hm, hh, hu]
  · simp [hs, hu]

theorem Coherent.get_cases :
    (¬ Unobstructed true a k ∧ kvsArrayGet a (some k) = none) ∨
    (Unobstructed true a k ∧ (∀ i < a.total, Passes true k (a.table i).key) ∧
      kvsArrayGet a (some k) = some (.null, a)) ∨
    (Unobstructed true a k ∧ ∃ i, a.FirstAt k i ∧
      kvsArrayGet a (some k) = some ((a.table i).value, a)) := by
  rw [kvsArrayGet_eq hl]
  obtain ⟨hu, hs⟩ | ⟨hu, hall, hs⟩ | ⟨hu, i, hi, hs⟩ := h.scan_cases true k
  · exact .inl ⟨hu, by rw [hs]; rfl⟩
  · exact .inr (.inl ⟨hu, hall, by rw [hs]; rfl⟩)
  · exact .inr (.inr ⟨hu, i, hi, by rw [hs]; rfl⟩)

theorem Coherent.del_isSome_iff : (kvsArrayDel a (some k)).isSome ↔
    Unobstructed false a k ∧ ¬ a.Lost k := by
  rw [kvsArrayDel_eq hl]
  obtain ⟨hu, hs⟩ | ⟨hu, hall, hs⟩ | ⟨hu, i, hi, hs⟩ := h.scan_cases false k
  · simp [hs, hu]
  · simp [hs, hu, not_lost_of_passes hall]
  · rw [hi.lost_iff]
    by_cases hv : (a.table i).value = .freed
    · simp [hs, hv]
    · simp [hs, hv, hu]

theorem Coherent.mod_isSome_iff : (kvsArrayMod a room (some k) (some v)).isSome ↔
    Unobstructed true a k ∧ ¬ a.Lost k := by
  rw [kvsArrayMod_eq hl]
  by_cases hn : a.total = 0
  · rw [if_pos hn]
    refine iff_of_true rfl ⟨?_, ?_⟩
    · intro i hi
      omega
    · rintro ⟨i, hi, -⟩
      have := hi.1
      omega
  rw [if_neg hn]
  obtain ⟨hu, hs⟩ | ⟨hu, hall, hs⟩ | ⟨hu, i, hi, hs⟩ := h.scan_cases true k
  · simp [hs, hu]
  · simp [hs, hu, not_lost_of_passes hall]
  · rw [hi.lost_iff]
    by_cases hv : (a.table i).value = .freed
    · simp [hs, hv]
    · cases room with
      | false => simp [hs, hv, hu]
      | true => simp [hs, hv, hu]

theorem Coherent.exist_isSome_iff : (kvsArrayExist a (some k)).isSome ↔ Unobstructed true a k := by
  rw [kvsArrayExist_eq hl]
  obtain ⟨hu, hs⟩ | ⟨hu, hall, hs⟩ | ⟨hu, i, -, hs⟩ := h.scan_cases true k
  · simp [hs, hu]
  · simp [hs, hu]
  · simp [hs, hu]

end Returns

section Keeps

variable {c : ℤ} (h : a.Coherent)
include h

theorem Coherent.set (hr : kvsArraySet a m key value = some (c, a')) : a'.Coherent := by
  have hl : a.locked = false := locked_of_lock hr
  obtain ⟨k, v, rfl, rfl⟩ | hnone := given_or_missing key value
  · rw [kvsArraySet_eq hl h.bound] at hr
    by_cases hfull : a.total = kvsArraySize
    · rw [if_pos hfull] at hr
      cases hr
      exact h
    rw [if_neg hfull] at hr
    obtain ⟨found, -, hr⟩ := Option.bind_eq_some_iff.mp hr
    split_ifs at hr
    · cases hr
      exact h
    · cases hr
      exact h
    · obtain ⟨hole, -, hr⟩ := Option.map_eq_some_iff.mp hr
      cases hr
      have hbound := h.bound
      exact (h.setItem _ (.live k v)).resize (show a.total + 1 ≤ kvsArraySize by omega) a.locked
  · rw [kvsArraySet_refused hnone, hl] at hr
    cases hr
    exact h

theorem Coherent.get {r : CharPtr × KvsArray} (hr : kvsArrayGet a key = some r) : r.2.Coherent := by
  have hl : a.locked = false := locked_of_lock hr
  cases key with
  | none =>
    rw [kvsArrayGet_refused, hl] at hr
    cases hr
    exact h.resize h.bound true
  | some k =>
    rw [kvsArrayGet_eq hl] at hr
    obtain ⟨found, -, rfl⟩ := Option.map_eq_some_iff.mp hr
    exact h

theorem Coherent.del (hr : kvsArrayDel a key = some (c, a')) : a'.Coherent := by
  have hl : a.locked = false := locked_of_lock hr
  cases key with
  | none =>
    rw [kvsArrayDel_refused, hl] at hr
    cases hr
    exact h.resize h.bound true
  | some k =>
    rw [kvsArrayDel_eq hl] at hr
    obtain ⟨found, -, hr⟩ := Option.bind_eq_some_iff.mp hr
    cases found with
    | none =>
      cases hr
      exact h
    | some i =>
      dsimp only at hr
      split_ifs at hr
      cases hr
      have hbound := h.bound
      refine (h.setItem i .hole).resize ?_ a.locked
      split_ifs
      · omega
      · exact hbound

theorem Coherent.mod (hr : kvsArrayMod a room key value = some (c, a')) : a'.Coherent := by
  have hl : a.locked = false := locked_of_lock hr
  obtain ⟨k, v, rfl, rfl⟩ | hnone := given_or_missing key value
  · rw [kvsArrayMod_eq hl] at hr
    by_cases hzero : a.total = 0
    · rw [if_pos hzero] at hr
      cases hr
      exact h
    rw [if_neg hzero] at hr
    obtain ⟨found, -, hr⟩ := Option.bind_eq_some_iff.mp hr
    cases found with
    | none =>
      cases hr
      exact h
    | some i =>
      dsimp only at hr
      split_ifs at hr
      · cases hr
        exact h.setItem i ⟨h.key i, fun _ _ => .inl rfl⟩
      · cases hr
        exact h.setItem i ⟨h.key i, fun _ _ => .inr ⟨v, rfl⟩⟩
  · rw [kvsArrayMod_refused hnone, hl] at hr
    cases hr
    exact h.resize h.bound true

theorem Coherent.exist (hr : kvsArrayExist a key = some (c, a')) : a'.Coherent := by
  have hl : a.locked = false := locked_of_lock hr
  cases key with
  | none =>
    rw [kvsArrayExist_refused, hl] at hr
    cases hr
    exact h
  | some k =>
    rw [kvsArrayExist_eq hl] at hr
    obtain ⟨found, -, hr⟩ := Option.map_eq_some_iff.mp hr
    cases hr
    exact h

end Keeps

end KvsArray
end KvStore
