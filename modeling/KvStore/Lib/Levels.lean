import Mathlib.Data.List.Basic
import Mathlib.Tactic.Common

/-! Lists that are threaded on several levels. An element is on some levels; a search goes along
a level while a test allows it and one level down where it does not. The place where such a
search ends depends on the test and on the heights alone. -/
namespace KvStore
namespace Levels

variable {α : Type*}

/-- The places of the elements of a list with a marked element. -/
theorem split_cases {l r c d : List α} {x y : α} (h : l ++ y :: r = c ++ x :: d) :
    (∃ e, l = c ++ x :: e ∧ d = e ++ y :: r) ∨ (c = l ∧ x = y ∧ d = r) ∨
      ∃ e, c = l ++ y :: e ∧ r = e ++ x :: d := by
  obtain ⟨e, hc, he⟩ | ⟨e, hl, he⟩ := List.append_eq_append_iff.mp h
  · cases e with
    | nil =>
      simp only [List.nil_append, List.cons.injEq] at he
      exact .inr (.inl ⟨by simpa using hc, he.1.symm, he.2.symm⟩)
    | cons z e =>
      simp only [List.cons_append, List.cons.injEq] at he
      obtain ⟨rfl, rfl⟩ := he
      exact .inr (.inr ⟨e, hc, rfl⟩)
  · cases e with
    | nil =>
      simp only [List.nil_append, List.cons.injEq] at he
      exact .inr (.inl ⟨by simpa using hl.symm, he.1, he.2⟩)
    | cons z e =>
      simp only [List.cons_append, List.cons.injEq] at he
      obtain ⟨rfl, rfl⟩ := he
      exact .inl ⟨e, hl, rfl⟩

section Threads

variable {on on' : α → ℕ → Bool} {i : ℕ} {p q s : List α} {u x : α}

/-- The first element on level `i`. -/
def nextAt (on : α → ℕ → Bool) (i : ℕ) (l : List α) : Option α := l.find? (on · i)

theorem nextAt_congr (h : ∀ x ∈ p, on x i = on' x i) : nextAt on i p = nextAt on' i p := by
  induction p with
  | nil => rfl
  | cons x p ih =>
    have hx := h x (by simp)
    have hp := ih fun y hy => h y (by simp [hy])
    simp only [nextAt, List.find?_cons, hx] at hp ⊢
    rw [hp]

/-- Elements that are not on the level are passed over. -/
theorem nextAt_append_of_off (h : ∀ x ∈ p, on x i = false) :
    nextAt on i (p ++ q) = nextAt on i q := by
  have hp : p.find? (on · i) = none := List.find?_eq_none.mpr (by simpa using h)
  simp [nextAt, List.find?_append, hp]

theorem nextAt_cons_on (h : on x i = true) : nextAt on i (x :: q) = some x := by
  simp [nextAt, h]

theorem nextAt_cons_off (h : on x i = false) : nextAt on i (x :: q) = nextAt on i q := by
  simp [nextAt, h]

/-- Nothing behind an element on the level matters. -/
theorem nextAt_append_on (h : on x i = true) :
    nextAt on i (p ++ x :: q) = nextAt on i (p ++ [x]) := by
  simp [nextAt, List.find?_append, h]

theorem nextAt_mem (h : nextAt on i p = some x) : x ∈ p := List.mem_of_find?_eq_some h

theorem nextAt_eq_none : nextAt on i p = none ↔ ∀ x ∈ p, on x i = false := by
  simp [nextAt]

/-- The next element, with those that are passed over on the way. -/
theorem nextAt_eq_some (h : nextAt on i p = some x) :
    ∃ s t, p = s ++ x :: t ∧ on x i = true ∧ ∀ y ∈ s, on y i = false := by
  obtain ⟨hx, s, t, hp, hs⟩ := List.find?_eq_some_iff_append.mp h
  exact ⟨s, t, hp, hx, by simpa using hs⟩

/-- `u` is the last element of `p` on level `i`. -/
def IsLast (on : α → ℕ → Bool) (i : ℕ) (p : List α) (u : α) : Prop :=
  ∃ a b, p = a ++ u :: b ∧ on u i = true ∧ ∀ y ∈ b, on y i = false

theorem IsLast.append (h : IsLast on i p u) (hs : ∀ y ∈ s, on y i = false) :
    IsLast on i (p ++ s) u := by
  obtain ⟨a, b, rfl, hu, hb⟩ := h
  refine ⟨a, b ++ s, by simp, hu, fun y hy => ?_⟩
  obtain hy | hy := List.mem_append.mp hy
  · exact hb y hy
  · exact hs y hy

theorem IsLast.end (h : on u i = true) : IsLast on i (q ++ [u]) u :=
  ⟨q, [], rfl, h, by simp⟩

end Threads

section Search

variable {less : α → Prop} {height : α → ℕ} {pre post pre' post' : List α}

/-- Whatever in `pre` fails the test is overtopped by a later element of `pre`. -/
def Passed (less : α → Prop) (height : α → ℕ) (pre : List α) : Prop :=
  ∀ a n b, pre = a ++ n :: b → ¬ less n → ∃ x ∈ b, height n < height x

/-- Whatever in `post` passes the test is hidden behind an earlier element of `post`. -/
def Held (less : α → Prop) (height : α → ℕ) (post : List α) : Prop :=
  ∀ a d b, post = a ++ d :: b → less d → ∃ e ∈ a, height d ≤ height e

theorem Passed.nil : Passed less height [] := by
  intro a n b h
  simp at h

/-- A search goes on to a higher element that passes the test. -/
theorem Passed.append {s : List α} {x : α} (h : Passed less height pre)
    (hs : ∀ y ∈ s, height y < height x) (hx : less x) : Passed less height (pre ++ (s ++ [x])) := by
  intro a n b hab hn
  have hsplit : pre ++ s ++ x :: [] = a ++ n :: b := by simpa using hab
  obtain ⟨e, he, rfl⟩ | ⟨-, rfl, -⟩ | ⟨e, -, he⟩ := split_cases hsplit
  · obtain ⟨e', ha, he'⟩ | ⟨e', hp, he'⟩ := List.append_eq_append_iff.mp he
    · refine ⟨x, by simp, hs n ?_⟩
      rw [he']
      simp
    · cases e' with
      | nil =>
        simp only [List.nil_append] at he'
        exact ⟨x, by simp, hs n (by simp [← he'])⟩
      | cons z e' =>
        simp only [List.cons_append, List.cons.injEq] at he'
        obtain ⟨rfl, rfl⟩ := he'
        obtain ⟨y, hy, hlt⟩ := h a n e' hp hn
        exact ⟨y, by simp [hy], hlt⟩
  · exact absurd hx hn
  · simp at he

/-- An element is on all levels up to its height. -/
def upTo (height : α → ℕ) (x : α) (i : ℕ) : Bool := decide (i ≤ height x)

@[simp] theorem upTo_eq_true {x : α} {i : ℕ} : upTo height x i = true ↔ i ≤ height x := by
  simp [upTo]

@[simp] theorem upTo_eq_false {x : α} {i : ℕ} : upTo height x i = false ↔ height x < i := by
  simp [upTo]

/-- A search stops when on every level the next element fails the test. -/
theorem Held.of_blocked {level : ℕ} (hlevel : ∀ x ∈ post, height x ≤ level)
    (h : ∀ i ≤ level, ∀ x, nextAt (upTo height) i post = some x → ¬ less x) :
    Held less height post := by
  intro a d b hab hd
  have hdl : height d ≤ level := hlevel d (by simp [hab])
  cases hx : nextAt (upTo height) (height d) post with
  | none =>
    have hoff := nextAt_eq_none.mp hx d (by simp [hab])
    simp at hoff
  | some x =>
    obtain ⟨s, t, hst, hon, hoff⟩ := nextAt_eq_some hx
    rw [hst] at hab
    obtain ⟨e, hs, -⟩ | ⟨-, rfl, -⟩ | ⟨e, ha, -⟩ := split_cases hab
    · have hds := hoff d (by simp [hs])
      simp at hds
    · exact absurd hd (h _ hdl d hx)
    · exact ⟨x, by simp [ha], by simpa using hon⟩

/-- A step along level `i` leaves the next elements of the higher levels as they were. -/
theorem nextAt_step {i j : ℕ} {s t : List α} {x : α} (hs : ∀ y ∈ s, height y < i) (hij : i ≤ j)
    (hx : less x)
    (h : ∀ y, nextAt (upTo height) j (s ++ x :: t) = some y → ¬ less y) :
    height x < j ∧ nextAt (upTo height) j (s ++ x :: t) = nextAt (upTo height) j t := by
  have hoff : ∀ y ∈ s, upTo height y j = false := fun y hy => by
    have hlt := hs y hy
    rw [upTo_eq_false]
    omega
  rw [nextAt_append_of_off hoff] at h ⊢
  have hxj : height x < j := by
    by_contra hxj
    exact h x (nextAt_cons_on (by simpa using hxj)) hx
  exact ⟨hxj, nextAt_cons_off (by simpa using hxj)⟩

/-- In a list there is a first element of the greatest height. -/
theorem exists_first_max (height : α → ℕ) {q : List α} (hq : q ≠ []) :
    ∃ a f b, q = a ++ f :: b ∧ (∀ y ∈ a, height y < height f) ∧ ∀ y ∈ b, height y ≤ height f := by
  induction q with
  | nil => exact absurd rfl hq
  | cons x q ih =>
    by_cases hn : q = []
    · exact ⟨[], x, [], by simp [hn], by simp, by simp⟩
    obtain ⟨a, f, b, rfl, ha, hb⟩ := ih hn
    by_cases hx : height x < height f
    · refine ⟨x :: a, f, b, rfl, fun y hy => ?_, hb⟩
      obtain rfl | hy := List.mem_cons.mp hy
      · exact hx
      · exact ha y hy
    · refine ⟨[], x, a ++ f :: b, rfl, by simp, fun y hy => ?_⟩
      simp only [List.mem_append, List.mem_cons] at hy
      obtain hy | rfl | hy := hy
      · have hlt := ha y hy
        omega
      · omega
      · have hle := hb y hy
        omega

theorem eq_nil_of_passed_of_held {q : List α} (hp : Passed less height (pre ++ q))
    (hh : Held less height (q ++ post)) : q = [] := by
  by_contra hq
  obtain ⟨a, f, b, rfl, ha, hb⟩ := exists_first_max height hq
  by_cases hf : less f
  · obtain ⟨e, he, hle⟩ := hh a f (b ++ post) (by simp) hf
    have hlt := ha e he
    omega
  · obtain ⟨x, hx, hlt⟩ := hp (pre ++ a) f b (by simp) hf
    have hle := hb x hx
    omega

/-- There is only one place where a search can end. -/
theorem place_unique (h : pre ++ post = pre' ++ post') (hp : Passed less height pre)
    (hh : Held less height post) (hp' : Passed less height pre') (hh' : Held less height post') :
    pre = pre' ∧ post = post' := by
  obtain ⟨q, rfl, rfl⟩ | ⟨q, rfl, rfl⟩ := List.append_eq_append_iff.mp h
  · obtain rfl := eq_nil_of_passed_of_held hp' hh
    simp
  · obtain rfl := eq_nil_of_passed_of_held hp hh'
    simp

/-- In a list that is sorted for the test, the search ends where the test changes. -/
theorem Passed.of_sorted (h : Passed less height pre)
    (hs : pre.Pairwise fun x y => less y → less x) : ∀ n ∈ pre, less n := by
  intro n hn
  obtain rfl | ⟨a, z, rfl⟩ := List.eq_nil_or_concat pre
  · simp at hn
  rw [List.concat_eq_append] at h hs hn
  have hz : less z := by
    by_contra hz
    obtain ⟨x, hx, -⟩ := h a z [] rfl hz
    simp at hx
  rw [List.pairwise_append] at hs
  obtain hn | hn := List.mem_append.mp hn
  · exact hs.2.2 n hn z (by simp) hz
  · rwa [List.mem_singleton.mp hn]

theorem Held.of_sorted (h : Held less height post)
    (hs : post.Pairwise fun x y => less y → less x) : ∀ d ∈ post, ¬ less d := by
  intro d hd hl
  cases post with
  | nil => simp at hd
  | cons f post =>
    have hf : ¬ less f := by
      intro hf
      obtain ⟨e, he, -⟩ := h [] f post rfl hf
      simp at he
    obtain rfl | hd := List.mem_cons.mp hd
    · exact hf hl
    · exact hf ((List.pairwise_cons.mp hs).1 d hd hl)

end Search
end Levels
end KvStore
