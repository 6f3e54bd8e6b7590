import Mathlib.Data.List.Basic
import Mathlib.Data.List.Nodup
import Mathlib.Logic.Function.Basic

/-! Singly linked lists of cells. `next` has the link of each cell that is there, and `nil` ends
a list. -/
namespace KvStore
namespace Linked

variable {α : Type*} {nil p q r : α} {next next' : α → Option α} {qs qs' A B : List α}

/-- The links lead from `p` through the cells of the list. -/
def Path (nil : α) (next : α → Option α) : α → List α → Prop
  | p, [] => p = nil
  | p, q :: qs => p = q ∧ q ≠ nil ∧ ∃ r, next q = some r ∧ Path nil next r qs

theorem Path.congr (h : Path nil next p qs) (hn : ∀ q ∈ qs, next' q = next q) :
    Path nil next' p qs := by
  induction qs generalizing p with
  | nil => exact h
  | cons q qs ih =>
    obtain ⟨hp, hq, r, hr, hqs⟩ := h
    refine ⟨hp, hq, r, ?_, ih hqs fun x hx => hn x (List.mem_cons_of_mem q hx)⟩
    rw [hn q List.mem_cons_self]
    exact hr

theorem Path.unique (h : Path nil next p qs) (h' : Path nil next p qs') : qs = qs' := by
  induction qs generalizing p qs' with
  | nil =>
    cases qs' with
    | nil => rfl
    | cons q qs' =>
      obtain ⟨hp, hq, -⟩ := h'
      exact absurd (hp.symm.trans h) hq
  | cons q qs ih =>
    obtain ⟨hp, hq, r, hr, hqs⟩ := h
    cases qs' with
    | nil => exact absurd (hp.symm.trans h') hq
    | cons q' qs' =>
      obtain ⟨hp', -, r', hr', hqs'⟩ := h'
      obtain rfl := hp.symm.trans hp'
      rw [hr] at hr'
      cases hr'
      rw [ih hqs hqs']

/-- A list that starts at a cell of its own end would never end. -/
theorem Path.nodup (h : Path nil next p qs) : qs.Nodup := by
  induction qs generalizing p with
  | nil => exact List.nodup_nil
  | cons q qs ih =>
    have hall := h
    obtain ⟨hp, -, r, -, hqs⟩ := h
    refine List.nodup_cons.mpr ⟨?_, ih hqs⟩
    intro hmem
    obtain ⟨A, B, hAB⟩ := List.append_of_mem hmem
    have hback : Path nil next q (q :: B) := by
      rw [hAB] at hqs
      clear hAB hall hp
      induction A generalizing r with
      | nil =>
        obtain ⟨rfl, hrest⟩ := hqs
        exact ⟨rfl, hrest⟩
      | cons a A ihA =>
        obtain ⟨-, -, s, -, hs⟩ := hqs
        exact ihA s hs
    have hsame := (hp ▸ hall).unique hback
    have hlen := congrArg List.length hsame
    rw [hAB] at hlen
    simp only [List.length_cons, List.length_append] at hlen
    omega

/-- A cell in front whose link is the start of the list. -/
theorem Path.cons (h : Path nil next p qs) (hq : q ≠ nil) (hn : next q = some p) :
    Path nil next q (q :: qs) := ⟨rfl, hq, p, hn, h⟩

theorem Path.tail (h : Path nil next p qs) (hp : p ≠ nil) :
    ∃ qs' r, qs = p :: qs' ∧ next p = some r ∧ Path nil next r qs' := by
  cases qs with
  | nil => exact absurd h hp
  | cons q qs =>
    obtain ⟨rfl, -, r, hr, hqs⟩ := h
    exact ⟨qs, r, rfl, hr, hqs⟩

theorem Path.eq_nil_iff (h : Path nil next p qs) : qs = [] ↔ p = nil := by
  cases qs with
  | nil => exact ⟨fun _ => h, fun _ => rfl⟩
  | cons q qs =>
    obtain ⟨rfl, hp, -⟩ := h
    simp [hp]

/-- The link in front of a cell is moved behind it. -/
theorem Path.unlink [DecidableEq α] (h : Path nil next p (A ++ r :: q :: B)) :
    Path nil (Function.update next r (next q)) p (A ++ r :: B) := by
  have hnodup := h.nodup
  induction A generalizing p with
  | nil =>
    obtain ⟨hp, hr, s, hs, hq, -, t, ht, hB⟩ := h
    refine ⟨hp, hr, t, by rw [Function.update_self, ht], ?_⟩
    apply hB.congr
    intro x hx
    apply Function.update_of_ne
    rintro rfl
    simp [hx] at hnodup
  | cons a A ih =>
    obtain ⟨hp, ha, s, hs, hrest⟩ := h
    rw [List.cons_append, List.nodup_cons] at hnodup
    have har : a ≠ r := fun he => hnodup.1 (by simp [he])
    refine ⟨hp, ha, s, by rw [Function.update_of_ne har, hs], ih hrest hnodup.2⟩

theorem Path.unlink_erase [DecidableEq α] (h : Path nil next p (A ++ r :: q :: B)) :
    Path nil (Function.update next r (next q)) p ((A ++ r :: q :: B).erase q) := by
  have hnodup := h.nodup
  rw [List.nodup_append] at hnodup
  have hqA : q ∉ A := fun hq => hnodup.2.2 q hq q (by simp) rfl
  have hrq : r ≠ q := by
    rintro rfl
    simp at hnodup
  rw [List.erase_append_right _ hqA, List.erase_cons_tail (by simpa using hrq),
    List.erase_cons_head]
  exact h.unlink

end Linked
end KvStore
