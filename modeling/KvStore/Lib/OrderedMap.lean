import Mathlib.Data.List.Pairwise
import Mathlib.Order.Lattice
import Mathlib.Tactic.Common

/-! Finite maps that are listed in the strict order of their keys. -/
namespace KvStore

/-- The entries of a map, by ascending keys. -/
structure OrderedMap (α β : Type*) [LinearOrder α] where
  toList : List (α × β)
  sorted : toList.Pairwise fun x y => x.1 < y.1

namespace OrderedMap

variable {α β : Type*} [LinearOrder α] {M : OrderedMap α β} {a b : α} {u v : β} {x : α × β}
  {l pre post : List (α × β)}

def empty : OrderedMap α β := ⟨[], .nil⟩

/-- The entry goes behind the smaller ones and takes the place of one with its key. -/
def put (a : α) (v : β) : List (α × β) → List (α × β)
  | [] => [(a, v)]
  | x :: l =>
    if x.1 < a then x :: put a v l
    else if x.1 = a then (a, v) :: l
    else (a, v) :: x :: l

theorem put_of_lt (h : x.1 < a) : put a v (x :: l) = x :: put a v l := if_pos h

theorem put_append (h : ∀ x ∈ pre, x.1 < a) : put a v (pre ++ l) = pre ++ put a v l := by
  induction pre with
  | nil => rfl
  | cons x pre ih =>
    rw [List.cons_append, put_of_lt (h x List.mem_cons_self),
      ih fun y hy => h y (List.mem_cons_of_mem x hy)]
    rfl

theorem put_same : put a v ((a, u) :: l) = (a, v) :: l := by
  rw [put, if_neg (lt_irrefl a), if_pos rfl]

theorem put_before (h : ∀ x ∈ l, a < x.1) : put a v l = (a, v) :: l := by
  cases l with
  | nil => rfl
  | cons x l =>
    have hx := h x List.mem_cons_self
    rw [put, if_neg hx.not_gt, if_neg hx.ne']

/-- A sorted list around a key. -/
theorem exists_place (a : α) (hl : l.Pairwise fun x y => x.1 < y.1) :
    ∃ pre post, (∀ x ∈ pre, x.1 < a) ∧ (∀ x ∈ post, a < x.1) ∧
      (l = pre ++ post ∨ ∃ u, l = pre ++ (a, u) :: post) := by
  induction l with
  | nil => exact ⟨[], [], by simp, by simp, .inl rfl⟩
  | cons x l ih =>
    obtain ⟨hx, hl⟩ := List.pairwise_cons.mp hl
    obtain hlt | heq | hgt := lt_trichotomy x.1 a
    · obtain ⟨pre, post, hpre, hpost, h⟩ := ih hl
      refine ⟨x :: pre, post, List.forall_mem_cons.mpr ⟨hlt, hpre⟩, hpost, ?_⟩
      obtain rfl | ⟨u, rfl⟩ := h
      · exact .inl rfl
      · exact .inr ⟨u, rfl⟩
    · subst heq
      exact ⟨[], l, by simp, hx, .inr ⟨x.2, rfl⟩⟩
    · refine ⟨[], x :: l, by simp, List.forall_mem_cons.mpr ⟨hgt, ?_⟩, .inl rfl⟩
      exact fun y hy => hgt.trans (hx y hy)

theorem sorted_middle (hl : (pre ++ post).Pairwise fun x y : α × β => x.1 < y.1)
    (hpre : ∀ x ∈ pre, x.1 < a) (hpost : ∀ x ∈ post, a < x.1) :
    (pre ++ (a, v) :: post).Pairwise fun x y => x.1 < y.1 := by
  rw [List.pairwise_append] at hl ⊢
  obtain ⟨hl, hr, hlr⟩ := hl
  refine ⟨hl, List.pairwise_cons.mpr ⟨hpost, hr⟩, fun x hx => ?_⟩
  exact List.forall_mem_cons.mpr ⟨hpre x hx, hlr x hx⟩

theorem put_sorted (hl : l.Pairwise fun x y => x.1 < y.1) :
    (put a v l).Pairwise fun x y => x.1 < y.1 := by
  obtain ⟨pre, post, hpre, hpost, rfl | ⟨u, rfl⟩⟩ := exists_place a hl
  · rw [put_append hpre, put_before hpost]
    exact sorted_middle hl hpre hpost
  · rw [put_append hpre, put_same]
    exact sorted_middle (hl.sublist (by simp)) hpre hpost

def insert (M : OrderedMap α β) (a : α) (v : β) : OrderedMap α β :=
  ⟨put a v M.toList, put_sorted M.sorted⟩

def erase (M : OrderedMap α β) (a : α) : OrderedMap α β :=
  ⟨M.toList.filter fun x => x.1 ≠ a, M.sorted.filter _⟩

@[simp] theorem toList_insert (M : OrderedMap α β) (a : α) (v : β) :
    (M.insert a v).toList = put a v M.toList := rfl

@[simp] theorem toList_erase (M : OrderedMap α β) (a : α) :
    (M.erase a).toList = M.toList.filter fun x => x.1 ≠ a := rfl

def lookup (M : OrderedMap α β) (a : α) : Option β :=
  (M.toList.find? fun x => x.1 = a).map Prod.snd

/-- What stands around an entry. -/
theorem around (h : M.toList = pre ++ (a, v) :: post) :
    (∀ x ∈ pre, x.1 < a) ∧ ∀ x ∈ post, a < x.1 := by
  have hs := M.sorted
  rw [h, List.pairwise_append] at hs
  obtain ⟨-, hr, hlr⟩ := hs
  exact ⟨fun x hx => hlr x hx _ List.mem_cons_self, (List.pairwise_cons.mp hr).1⟩

theorem lookup_eq_some_iff : M.lookup a = some v ↔ (a, v) ∈ M.toList := by
  constructor
  · intro h
    obtain ⟨x, hx, rfl⟩ := Option.map_eq_some_iff.mp h
    obtain rfl : x.1 = a := by simpa using List.find?_some hx
    exact List.mem_of_find?_eq_some hx
  · intro h
    obtain ⟨pre, post, hl⟩ := List.append_of_mem h
    have hpre : pre.find? (fun x => x.1 = a) = none := by
      rw [List.find?_eq_none]
      intro x hx
      simpa using ((around hl).1 x hx).ne
    rw [lookup, hl, List.find?_append, hpre]
    simp

theorem lookup_isSome_iff : (M.lookup a).isSome ↔ ∃ v, (a, v) ∈ M.toList := by
  rw [Option.isSome_iff_exists]
  exact exists_congr fun v => lookup_eq_some_iff

theorem insert_of_mem (h : M.toList = pre ++ (a, u) :: post) :
    (M.insert a v).toList = pre ++ (a, v) :: post := by
  rw [toList_insert, h, put_append (around h).1, put_same]

theorem insert_of_between (h : M.toList = pre ++ post) (hpre : ∀ x ∈ pre, x.1 < a)
    (hpost : ∀ x ∈ post, a < x.1) : (M.insert a v).toList = pre ++ (a, v) :: post := by
  rw [toList_insert, h, put_append hpre, put_before hpost]

theorem erase_of_mem (h : M.toList = pre ++ (a, v) :: post) :
    (M.erase a).toList = pre ++ post := by
  obtain ⟨hpre, hpost⟩ := around h
  have hl : pre.filter (fun x => x.1 ≠ a) = pre :=
    List.filter_eq_self.mpr fun x hx => by simpa using (hpre x hx).ne
  have hr : post.filter (fun x => x.1 ≠ a) = post :=
    List.filter_eq_self.mpr fun x hx => by simpa using (hpost x hx).ne'
  rw [toList_erase, h, List.filter_append, List.filter_cons_of_neg (by simp), hl, hr]

theorem lookup_insert (M : OrderedMap α β) (a b : α) (v : β) :
    (M.insert a v).lookup b = if b = a then some v else M.lookup b := by
  obtain ⟨pre, post, hpre, hpost, h⟩ := exists_place a M.sorted
  have hins : (M.insert a v).toList = pre ++ (a, v) :: post := by
    obtain h | ⟨u, h⟩ := h
    · exact insert_of_between h hpre hpost
    · exact insert_of_mem h
  by_cases hb : b = a
  · subst hb
    rw [if_pos rfl, lookup_eq_some_iff, hins]
    simp
  · rw [if_neg hb]
    apply Option.ext
    intro w
    rw [lookup_eq_some_iff, lookup_eq_some_iff, hins]
    obtain h | ⟨u, h⟩ := h
    · simp [h, hb]
    · simp [h, hb]

theorem lookup_erase (M : OrderedMap α β) (a b : α) :
    (M.erase a).lookup b = if b = a then none else M.lookup b := by
  apply Option.ext
  intro w
  rw [lookup_eq_some_iff, toList_erase, List.mem_filter]
  by_cases hb : b = a
  · simp [hb]
  · simp [hb, lookup_eq_some_iff]

end OrderedMap
end KvStore
