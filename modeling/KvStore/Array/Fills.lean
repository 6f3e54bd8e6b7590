import KvStore.Array.Slots
import KvStore.Lib.Alike

/-! Two arrays of which the second has something in the slots that were never written in the first.
A call that comes to no such slot does the same on both. -/
namespace KvStore
open Fuel

namespace KvsArray

variable {a b : KvsArray} {k : CString} {i j n : ℕ} {checked : Bool} {t t' : ℕ → ArrayItem}

structure Fills (a b : KvsArray) : Prop where
  total : b.total = a.total
  locked : b.locked = a.locked
  slot : ∀ i, (a.table i).key ≠ .uninit → b.table i = a.table i

/-- The scan for a key goes past slots that were written up to one that was not. -/
def Unwritten (checked : Bool) (a : KvsArray) (k : CString) : Prop :=
  ∃ j, j < a.total ∧ (a.table j).key = .uninit ∧ ∀ l, l < j → Passes checked k (a.table l).key

/-- The slot that a scan stops at has a key. -/
theorem key_of_scan (h : scan checked t k i n = some (some j)) : (t j).key ≠ .uninit := by
  induction n generalizing i with
  | zero => cases h
  | succ n ih =>
    rw [scan] at h
    split at h
    · cases h
    · cases hkey : (t i).key with
      | str s =>
        simp only [hkey] at h
        split at h
        · cases h
          simp [hkey]
        · exact ih h
      | null =>
        simp only [hkey] at h
        split at h
        · exact ih h
        · cases h
      | uninit =>
        simp only [hkey] at h
        cases h
      | freed =>
        simp only [hkey] at h
        cases h

/-- A scan that goes past all slots has read their keys. -/
theorem keys_of_scan (h : scan checked t k i n = some none) (hij : i ≤ j) (hj : j < i + n) :
    (t j).key ≠ .uninit := by
  induction n generalizing i with
  | zero => omega
  | succ n ih =>
    have hnext : scan checked t k (i + 1) n = some none ∧ (t i).key ≠ .uninit := by
      rw [scan] at h
      split at h
      · cases h
      · cases hkey : (t i).key with
        | str s =>
          simp only [hkey] at h
          split at h
          · cases h
          · exact ⟨h, by simp⟩
        | null =>
          simp only [hkey] at h
          split at h
          · exact ⟨h, by simp⟩
          · cases h
        | uninit =>
          simp only [hkey] at h
          cases h
        | freed =>
          simp only [hkey] at h
          cases h
    by_cases hji : j = i
    · rw [hji]
      exact hnext.2
    · exact ih hnext.1 (by omega) (by omega)

theorem scan_fills (hslot : ∀ i, (t i).key ≠ .uninit → t' i = t i)
    (h : ∀ j, i ≤ j → j < i + n → (∀ l, i ≤ l → l < j → Passes checked k (t l).key) →
      (t j).key ≠ .uninit) : scan checked t' k i n = scan checked t k i n := by
  induction n generalizing i with
  | zero => rfl
  | succ n ih =>
    have hi : (t i).key ≠ .uninit := h i le_rfl (by omega) fun l hil hli => by omega
    have hnext : Passes checked k (t i).key →
        scan checked t' k (i + 1) n = scan checked t k (i + 1) n := by
      intro hp
      apply ih
      intro j hij hjn hpass
      apply h j (by omega) (by omega)
      intro l hil hlj
      by_cases hli : l = i
      · rwa [hli]
      · exact hpass l (by omega) hlj
    rw [scan, scan, hslot i hi]
    cases hkey : (t i).key with
    | str s =>
      by_cases hs : CString.strcmp s k = 0
      · simp only [if_pos hs]
      · have hp : Passes checked k (t i).key := by
          rw [hkey]
          exact fun he => hs ((CString.strcmp_eq_zero _ _).mpr he)
        simp only [if_neg hs, hnext hp]
    | null =>
      cases checked with
      | true => simp only [if_true, hnext (by rw [hkey]; rfl)]
      | false => rfl
    | uninit => exact absurd hkey hi
    | freed => rfl

theorem scanHole_fills (hslot : ∀ i, (t i).key ≠ .uninit → t' i = t i)
    (h : ∀ j, i ≤ j → j < i + n → (t j).key ≠ .uninit) : scanHole t' i n = scanHole t i n := by
  induction n generalizing i with
  | zero => rfl
  | succ n ih =>
    rw [scanHole, scanHole, hslot i (h i le_rfl (by omega)), ih fun j hij hjn => h j (by omega) (by omega)]

namespace Fills

theorem scan (h : Fills a b) (hw : ¬ Unwritten checked a k) :
    scan checked b.table k 0 b.total = scan checked a.table k 0 a.total := by
  rw [h.total]
  refine scan_fills h.slot fun j _ hj hpass hun => hw ⟨j, by omega, hun, ?_⟩
  exact fun l hl => hpass l (Nat.zero_le l) hl

theorem unlock (h : Fills a b) : Fills a.unlock b.unlock := ⟨h.total, rfl, h.slot⟩

theorem setItem (h : Fills a b) (i : ℕ) (x : ArrayItem) : Fills (a.setItem i x) (b.setItem i x) := by
  refine ⟨h.total, h.locked, ?_⟩
  intro j hj
  simp only [KvsArray.setItem] at hj ⊢
  by_cases hji : j = i
  · simp [hji]
  · rw [Function.update_of_ne hji] at hj
    rw [Function.update_of_ne hji, Function.update_of_ne hji]
    exact h.slot j hj

theorem setTotal (h : Fills a b) {m m' : ℕ} (hm : m' = m) :
    Fills { a with total := m } { b with total := m' } := ⟨hm, h.locked, h.slot⟩

/-- The states behind two calls with the same result. -/
def SameCall {α : Type*} (r r' : α × KvsArray) : Prop := r.1 = r'.1 ∧ Fills r.2 r'.2

/-- A lock changes no slot. -/
theorem bind_lock {α : Type*} {f g : KvsArray → Option (α × KvsArray)} (h : Fills a b)
    (hfg : ∀ a' b', Fills a' b' → a'.table = a.table → a'.total = a.total →
      Option.Rel SameCall (f a') (g b')) :
    Option.Rel SameCall (a.lock.bind f) (b.lock.bind g) := by
  unfold KvsArray.lock
  rw [h.locked]
  split_ifs
  · exact .none
  · exact hfg _ _ ⟨h.total, rfl, h.slot⟩ rfl rfl

theorem not_unwritten {a' : KvsArray} (hw : ¬ Unwritten checked a k) (htable : a'.table = a.table)
    (htotal : a'.total = a.total) : ¬ Unwritten checked a' k := by
  rw [Unwritten, htable, htotal]
  exact hw

theorem get (h : Fills a b) (hw : ¬ Unwritten true a k) :
    Option.Rel SameCall (kvsArrayGet a (some k)) (kvsArrayGet b (some k)) := by
  refine h.bind_lock fun a' b' h' htable htotal => ?_
  have heq := h'.scan (not_unwritten hw htable htotal)
  dsimp only
  rw [heq]
  cases hscan : KvsArray.scan true a'.table k 0 a'.total with
  | none => exact .none
  | some found =>
    cases found with
    | none => exact .some ⟨rfl, h'.unlock⟩
    | some i =>
      refine .some ⟨?_, h'.unlock⟩
      rw [h'.slot i (key_of_scan hscan)]

theorem exist (h : Fills a b) (hw : ¬ Unwritten true a k) :
    Option.Rel SameCall (kvsArrayExist a (some k)) (kvsArrayExist b (some k)) := by
  refine h.bind_lock fun a' b' h' htable htotal => ?_
  have heq := h'.scan (not_unwritten hw htable htotal)
  dsimp only
  rw [heq]
  cases KvsArray.scan true a'.table k 0 a'.total with
  | none => exact .none
  | some found =>
    cases found with
    | none => exact .some ⟨rfl, h'.unlock⟩
    | some i => exact .some ⟨rfl, h'.unlock⟩

theorem del (h : Fills a b) (hw : ¬ Unwritten false a k) :
    Option.Rel SameCall (kvsArrayDel a (some k)) (kvsArrayDel b (some k)) := by
  refine h.bind_lock fun a' b' h' htable htotal => ?_
  have heq := h'.scan (not_unwritten hw htable htotal)
  dsimp only
  rw [heq]
  cases hscan : KvsArray.scan false a'.table k 0 a'.total with
  | none => exact .none
  | some found =>
    cases found with
    | none => exact .some ⟨by rw [h'.total], h'.unlock⟩
    | some i =>
      have hset := h'.setItem i .hole
      simp only [Option.bind_some, h'.slot i (key_of_scan hscan), hset.total]
      split_ifs
      · exact .none
      · exact .some ⟨rfl, (hset.setTotal rfl).unlock⟩
      · exact .some ⟨rfl, hset.unlock⟩

theorem mod (h : Fills a b) (room : Bool) (v : CString) (hw : ¬ Unwritten true a k) :
    Option.Rel SameCall (kvsArrayMod a room (some k) (some v))
      (kvsArrayMod b room (some k) (some v)) := by
  refine h.bind_lock fun a' b' h' htable htotal => ?_
  have heq := h'.scan (not_unwritten hw htable htotal)
  dsimp only
  rw [heq, h'.total]
  by_cases hzero : a'.total = 0
  · rw [if_pos hzero, if_pos hzero]
    exact .some ⟨rfl, h'.unlock⟩
  rw [if_neg hzero, if_neg hzero]
  cases hscan : KvsArray.scan true a'.table k 0 a'.total with
  | none => exact .none
  | some found =>
    cases found with
    | none => exact .some ⟨rfl, h'.unlock⟩
    | some i =>
      simp only [Option.bind_some, h'.slot i (key_of_scan hscan)]
      split_ifs
      · exact .none
      · exact .some ⟨rfl, (h'.setItem i _).unlock⟩
      · exact .some ⟨rfl, (h'.setItem i _).unlock⟩

theorem set (h : Fills a b) (m : ArrayAlloc) (v : CString)
    (hw : a.total ≠ kvsArraySize → ¬ Unwritten true a k) :
    Option.Rel SameCall (kvsArraySet a m (some k) (some v)) (kvsArraySet b m (some k) (some v)) := by
  refine h.bind_lock fun a' b' h' htable htotal => ?_
  dsimp only
  rw [h'.total]
  by_cases hfull : a'.total = kvsArraySize
  · rw [if_pos hfull, if_pos hfull]
    exact .some ⟨rfl, h'.unlock⟩
  rw [if_neg hfull, if_neg hfull]
  have heq := h'.scan (not_unwritten (hw (htotal ▸ hfull)) htable htotal)
  rw [h'.total] at heq
  rw [heq]
  cases hscan : KvsArray.scan true a'.table k 0 a'.total with
  | none => exact .none
  | some found =>
    cases found with
    | some i => exact .some ⟨rfl, h'.unlock⟩
    | none =>
      have hhole := scanHole_fills h'.slot fun j => keys_of_scan hscan
      simp only [Option.bind_some, hhole]
      by_cases hkey : (!m.key) = true
      · rw [if_pos hkey, if_pos hkey]
        exact .some ⟨rfl, h'.unlock⟩
      rw [if_neg hkey, if_neg hkey]
      by_cases hvalue : (!m.value) = true
      · rw [if_pos hvalue, if_pos hvalue]
        exact .some ⟨rfl, h'.unlock⟩
      rw [if_neg hvalue, if_neg hvalue]
      cases scanHole a'.table 0 a'.total with
      | none => exact .none
      | some hole =>
        cases hole with
        | some i =>
          have hset := h'.setItem i (.live k v)
          exact .some ⟨rfl, (hset.setTotal (congrArg (· + 1) hset.total)).unlock⟩
        | none =>
          have hset := h'.setItem a'.total (.live k v)
          simp only [Option.bind_some]
          split_ifs
          · exact .some ⟨rfl, (hset.setTotal (congrArg (· + 1) hset.total)).unlock⟩
          · exact .some ⟨rfl, h'.unlock⟩

end Fills
end KvsArray
end KvStore
