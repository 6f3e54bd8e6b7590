import KvStore.Lib.Memory
import Mathlib.Logic.Function.Basic
import Mathlib.Tactic.Common

/-! Regions that are tiled by blocks, one block for each of some names, and how tiles are cut and
joined. -/
namespace KvStore
namespace Memory

/-- Blocks that have bytes, and no byte in common. -/
theorem apart_of_not_has {a b : Block} (ha : 0 < a.bytes) (hb : 0 < b.bytes)
    (h : ∀ x, a.Has x → ¬ b.Has x) : Apart a b := by
  by_contra hno
  rw [Apart] at hno
  have hin := h (max a.ptr b.ptr)
  unfold Block.Has at hin
  omega

variable {ι : Type*} {B B' : ι → Option Block} {R : ℕ → Prop} {i j : ι} {p m n : ℕ}

/-- The blocks have bytes and lie apart, and their bytes are those of the region. -/
structure Tiles (B : ι → Option Block) (R : ℕ → Prop) : Prop where
  pos : ∀ i b, B i = some b → 0 < b.bytes
  apart : ∀ i j a b, B i = some a → B j = some b → i ≠ j → Apart a b
  cover : ∀ x, R x ↔ ∃ i b, B i = some b ∧ b.Has x

namespace Tiles

theorem empty : Tiles (fun _ : ι => none) fun _ => False where
  pos := by
    intro i b hb
    cases hb
  apart := by
    intro i j a b ha
    cases ha
  cover := by
    intro x
    constructor
    · exact False.elim
    · rintro ⟨i, b, hb, -⟩
      cases hb

variable [DecidableEq ι]

/-- A block outside the region is one more tile. -/
theorem add (h : Tiles B R) (hi : B i = none) {b : Block} (hpos : 0 < b.bytes)
    (hout : ∀ x, b.Has x → ¬ R x) :
    Tiles (Function.update B i (some b)) fun x => R x ∨ b.Has x where
  pos := by
    intro j a ha
    rw [Function.update_apply] at ha
    split_ifs at ha
    · cases ha
      exact hpos
    · exact h.pos j a ha
  apart := by
    have hb : ∀ j a, B j = some a → Apart b a := by
      intro j a ha
      apply apart_of_not_has hpos (h.pos j a ha)
      intro x hx hax
      exact hout x hx ((h.cover x).mpr ⟨j, a, ha, hax⟩)
    intro j k a c ha hc hjk
    rw [Function.update_apply] at ha hc
    split_ifs at ha hc with hj hk hk
    · exact absurd (hj.trans hk.symm) hjk
    · cases ha
      exact hb k c hc
    · cases hc
      exact (hb j a ha).symm
    · exact h.apart j k a c ha hc hjk
  cover := by
    intro x
    rw [h.cover]
    constructor
    · rintro (⟨j, a, ha, hx⟩ | hx)
      · refine ⟨j, a, ?_, hx⟩
        rw [Function.update_of_ne, ha]
        rintro rfl
        rw [hi] at ha
        cases ha
      · exact ⟨i, b, Function.update_self i _ B, hx⟩
    · rintro ⟨j, a, ha, hx⟩
      rw [Function.update_apply] at ha
      split_ifs at ha
      · cases ha
        exact .inr hx
      · exact .inl ⟨j, a, ha, hx⟩

/-- A tile is cut in two. -/
theorem split (h : Tiles B R) (hi : B i = some ⟨p, m + n⟩) (hj : B j = none) (hm : 0 < m)
    (hn : 0 < n) :
    Tiles (Function.update (Function.update B j (some ⟨p + m, n⟩)) i (some ⟨p, m⟩)) R := by
  have hij : i ≠ j := by
    rintro rfl
    rw [hi] at hj
    cases hj
  have hcases : ∀ k a,
      Function.update (Function.update B j (some ⟨p + m, n⟩)) i (some ⟨p, m⟩) k = some a →
      k = i ∧ a = ⟨p, m⟩ ∨ k = j ∧ a = ⟨p + m, n⟩ ∨ k ≠ i ∧ k ≠ j ∧ B k = some a := by
    intro k a ha
    by_cases hki : k = i
    · rw [hki, Function.update_self] at ha
      cases ha
      exact .inl ⟨hki, rfl⟩
    rw [Function.update_of_ne hki] at ha
    by_cases hkj : k = j
    · rw [hkj, Function.update_self] at ha
      cases ha
      exact .inr (.inl ⟨hkj, rfl⟩)
    rw [Function.update_of_ne hkj] at ha
    exact .inr (.inr ⟨hki, hkj, ha⟩)
  have hfirst : Inside ⟨p, m⟩ ⟨p, m + n⟩ := ⟨le_rfl, by simp⟩
  have hsecond : Inside ⟨p + m, n⟩ ⟨p, m + n⟩ := ⟨Nat.le_add_right _ _, by simp [Nat.add_assoc]⟩
  constructor
  · intro k a ha
    obtain ⟨-, rfl⟩ | ⟨-, rfl⟩ | ⟨-, -, hk⟩ := hcases k a ha
    · exact hm
    · exact hn
    · exact h.pos k a hk
  · intro k l a b ha hb hkl
    obtain ⟨rfl, rfl⟩ | ⟨rfl, rfl⟩ | ⟨hki, hkj, hk⟩ := hcases k a ha
    · obtain ⟨rfl, -⟩ | ⟨-, rfl⟩ | ⟨hli, -, hl⟩ := hcases l b hb
      · exact absurd rfl hkl
      · exact .inl le_rfl
      · exact hfirst.apart (h.apart k l _ b hi hl hkl)
    · obtain ⟨rfl, rfl⟩ | ⟨rfl, -⟩ | ⟨hli, -, hl⟩ := hcases l b hb
      · exact .inr le_rfl
      · exact absurd rfl hkl
      · exact hsecond.apart (h.apart i l _ b hi hl hli.symm)
    · obtain ⟨rfl, rfl⟩ | ⟨-, rfl⟩ | ⟨-, -, hl⟩ := hcases l b hb
      · exact (hfirst.apart (h.apart l k _ a hi hk hkl.symm)).symm
      · exact (hsecond.apart (h.apart i k _ a hi hk hki.symm)).symm
      · exact h.apart k l a b hk hl hkl
  · intro x
    rw [h.cover]
    constructor
    · rintro ⟨k, a, ha, hx⟩
      by_cases hki : k = i
      · rw [hki, hi] at ha
        cases ha
        rw [has_mk] at hx
        by_cases hlt : x < p + m
        · exact ⟨i, _, Function.update_self _ _ _, hx.1, hlt⟩
        · refine ⟨j, ⟨p + m, n⟩, by rw [Function.update_of_ne hij.symm, Function.update_self], ?_⟩
          exact has_mk.mpr ⟨not_lt.mp hlt, by omega⟩
      · refine ⟨k, a, ?_, hx⟩
        rw [Function.update_of_ne hki, Function.update_of_ne, ha]
        rintro rfl
        rw [hj] at ha
        cases ha
    · rintro ⟨k, a, ha, hx⟩
      obtain ⟨rfl, rfl⟩ | ⟨-, rfl⟩ | ⟨-, -, ha⟩ := hcases k a ha
      · exact ⟨k, _, hi, hfirst.has hx⟩
      · exact ⟨i, _, hi, hsecond.has hx⟩
      · exact ⟨k, a, ha, hx⟩

/-- Two tiles become one that takes the name of the first. -/
theorem join (h : Tiles B R) (hi : B i = some ⟨p, m⟩) (hj : B j = some ⟨p + m, n⟩) (hij : i ≠ j) :
    Tiles (Function.update (Function.update B i (some ⟨p, m + n⟩)) j none) R := by
  have hcases : ∀ k a,
      Function.update (Function.update B i (some ⟨p, m + n⟩)) j none k = some a →
      k = i ∧ a = ⟨p, m + n⟩ ∨ k ≠ i ∧ k ≠ j ∧ B k = some a := by
    intro k a ha
    by_cases hkj : k = j
    · rw [hkj, Function.update_self] at ha
      cases ha
    rw [Function.update_of_ne hkj] at ha
    by_cases hki : k = i
    · rw [hki, Function.update_self] at ha
      cases ha
      exact .inl ⟨hki, rfl⟩
    rw [Function.update_of_ne hki] at ha
    exact .inr ⟨hki, hkj, ha⟩
  have hother : ∀ k a, k ≠ i → k ≠ j → B k = some a → Apart ⟨p, m + n⟩ a := by
    intro k a hki hkj ha
    have hpos := h.pos k a ha
    have hfirst := h.apart i k _ a hi ha hki.symm
    have hsecond := h.apart j k _ a hj ha hkj.symm
    unfold Apart at *
    dsimp only at *
    omega
  constructor
  · intro k a ha
    obtain ⟨-, rfl⟩ | ⟨-, -, hk⟩ := hcases k a ha
    · have := h.pos i _ hi
      exact Nat.add_pos_left this n
    · exact h.pos k a hk
  · intro k l a b ha hb hkl
    obtain ⟨rfl, rfl⟩ | ⟨hki, hkj, hk⟩ := hcases k a ha
    · obtain ⟨rfl, -⟩ | ⟨hli, hlj, hl⟩ := hcases l b hb
      · exact absurd rfl hkl
      · exact hother l b hli hlj hl
    · obtain ⟨-, rfl⟩ | ⟨-, -, hl⟩ := hcases l b hb
      · exact (hother k a hki hkj hk).symm
      · exact h.apart k l a b hk hl hkl
  · intro x
    rw [h.cover]
    have hself : Function.update (Function.update B i (some ⟨p, m + n⟩)) j none i =
        some ⟨p, m + n⟩ := by
      rw [Function.update_of_ne hij, Function.update_self]
    constructor
    · rintro ⟨k, a, ha, hx⟩
      by_cases hki : k = i
      · rw [hki, hi] at ha
        cases ha
        exact ⟨i, _, hself, hx.1, hx.2.trans_le (by simp)⟩
      by_cases hkj : k = j
      · rw [hkj, hj] at ha
        cases ha
        rw [has_mk] at hx
        exact ⟨i, _, hself, has_mk.mpr ⟨by omega, by omega⟩⟩
      · exact ⟨k, a, by rw [Function.update_of_ne hkj, Function.update_of_ne hki, ha], hx⟩
    · rintro ⟨k, a, ha, hx⟩
      obtain ⟨-, rfl⟩ | ⟨-, -, hk⟩ := hcases k a ha
      · rw [has_mk] at hx
        by_cases hlt : x < p + m
        · exact ⟨i, _, hi, hx.1, hlt⟩
        · exact ⟨j, _, hj, has_mk.mpr ⟨not_lt.mp hlt, by omega⟩⟩
      · exact ⟨k, a, hk, hx⟩

end Tiles

end Memory
end KvStore
