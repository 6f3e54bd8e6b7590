import KvStore.Skip.Model
import KvStore.Lib.Fuel
import KvStore.Lib.Levels
import Mathlib.Tactic

/-! Which members a skip list holds, and where a descent through it ends. While a node is being
linked or unlinked it is on some of its levels only, so the relation between heap and members
takes the levels of one node as a parameter. -/
namespace KvStore
open Levels

variable {S : Type*}

/-- A node in the order of level 0. -/
structure Member (S : Type*) where
  ptr : Ptr
  key : CString
  value : CString
  score : S
  height : ℕ

namespace Member

def node (x : Member S) (forward : List Ptr) : SkipNode S := ⟨x.key, x.value, x.score, forward⟩

/-- The address of a node, or `NULL`. -/
def addr (x : Option (Member S)) : Ptr := x.elim null ptr

@[simp] theorem addr_none : addr (none : Option (Member S)) = null := rfl
@[simp] theorem addr_some (x : Member S) : addr (some x) = x.ptr := rfl

/-- Nodes are on all their levels, except that the one at `z` is on the levels `s`. -/
def vis (z : Ptr) (s : ℕ → Bool) (x : Member S) (i : ℕ) : Bool :=
  if x.ptr = z then s i else upTo height x i

theorem vis_of_ne {z : Ptr} {s : ℕ → Bool} {x : Member S} (h : x.ptr ≠ z) (i : ℕ) :
    vis z s x i = upTo height x i := by simp [vis, h]

@[simp] theorem vis_self (s : ℕ → Bool) (z : Member S) (i : ℕ) : vis z.ptr s z i = s i := by
  simp [vis]

end Member

open Member

namespace SkipList

variable {L L' : SkipList S} {on on' : Member S → ℕ → Bool} {l p : List (Member S)}
  {x z : Member S} {i : ℕ}

/-- Each node of the list has its fields in the heap, and on each of its levels its forward
pointer is the next node there. -/
def Linked (L : SkipList S) (on : Member S → ℕ → Bool) (l : List (Member S)) : Prop :=
  ∀ a x b, l = a ++ x :: b → ∃ f, L.nodes x.ptr = some (x.node f) ∧ f.length = x.height + 1 ∧
    ∀ i ≤ x.height, on x i = true → f[i]? = some (addr (nextAt on i b))

theorem Linked.congr (h : L.Linked on l) (hon : ∀ x ∈ l, ∀ i, on' x i = on x i) :
    L.Linked on' l := by
  intro a x b hab
  obtain ⟨f, hf, hlen, hnext⟩ := h a x b hab
  refine ⟨f, hf, hlen, fun i hi hx => ?_⟩
  rw [hon x (by simp [hab])] at hx
  rw [hnext i hi hx, nextAt_congr fun y hy => hon y (by simp [hab, hy]) i]

theorem Linked.read (h : L.Linked on l) {a b : List (Member S)} (hab : l = a ++ x :: b)
    (hi : i ≤ x.height) (hx : on x i = true) : L.read x.ptr i = some (addr (nextAt on i b)) := by
  obtain ⟨f, hf, -, hnext⟩ := h a x b hab
  simpa [SkipList.read, hf, node] using hnext i hi hx

section Descent

variable {less : Member S → Prop} {test : SkipNode S → Bool} {hdr u : Member S}
  {pre post : List (Member S)} {level : ℕ} {update : ℕ → Option Ptr}

/-- The state of a descent at level `i`: the nodes up to the current one `u` are passed, and on
each higher level the search is blocked and its last node recorded. -/
structure Descent (less : Member S → Prop) (hdr : Member S) (level i : ℕ) (pre : List (Member S))
    (u : Member S) (post : List (Member S)) (update : ℕ → Option Ptr) : Prop where
  last : ∃ q, hdr :: pre = q ++ [u]
  on : i ≤ u.height
  passed : Passed less height pre
  blocked : ∀ j, i < j → j ≤ level → ∀ x, nextAt (upTo height) j post = some x → ¬ less x
  recorded : ∀ j, i < j → j ≤ level →
    ∃ v, update j = some v.ptr ∧ IsLast (upTo height) j (hdr :: pre) v

/-- One step of the descent along level `i`. -/
theorem Descent.step {s t : List (Member S)}
    (hd : Descent less hdr level i pre u (s ++ x :: t) update) (hx : less x)
    (hs : ∀ y ∈ s, y.height < i) (hi : i ≤ x.height) :
    Descent less hdr level i (pre ++ (s ++ [x])) x t update := by
  have hhigh : ∀ j, i < j → j ≤ level → x.height < j ∧
      nextAt (upTo height) j (s ++ x :: t) = nextAt (upTo height) j t := fun j hj hl =>
    nextAt_step hs hj.le hx (hd.blocked j hj hl)
  refine ⟨⟨hdr :: (pre ++ s), by simp⟩, hi, hd.passed.append (fun y hy => ?_) hx,
    fun j hj hl => ?_, fun j hj hl => ?_⟩
  · exact (hs y hy).trans_le hi
  · rw [← (hhigh j hj hl).2]
    exact hd.blocked j hj hl
  · obtain ⟨v, hv, hlast⟩ := hd.recorded j hj hl
    refine ⟨v, hv, hlast.append fun y hy => ?_⟩
    rw [upTo_eq_false]
    obtain hy | hy := List.mem_append.mp hy
    · exact (hs y hy).trans hj
    · rw [List.mem_singleton.mp hy]
      exact (hhigh j hj hl).1

theorem Descent.scan (hL : L.Linked (upTo height) (hdr :: (pre ++ post)))
    (hnull : ∀ x ∈ pre ++ post, x.ptr ≠ null) (htest : ∀ x f, test (x.node f) = true ↔ less x)
    (hd : Descent less hdr level i pre u post update) :
    ∃ pre' u' post', pre ++ post = pre' ++ post' ∧
      Fuel.Returns (fun n => L.scan test i n u.ptr) u'.ptr ∧
      Descent less hdr level i pre' u' post' update ∧
      ∀ x, nextAt (upTo height) i post' = some x → ¬ less x := by
  induction hn : post.length using Nat.strong_induction_on generalizing pre u post with
  | _ n ih =>
    subst hn
    obtain ⟨q, hq⟩ := hd.last
    have hread := hL.read (x := u) (a := q) (b := post) (by
      rw [← List.cons_append, hq]
      simp) hd.on (by simpa using hd.on)
    cases hx : nextAt (upTo height) i post with
    | none =>
      refine ⟨pre, u, post, rfl, .last fun n => ?_, hd, by simp [hx]⟩
      simp [SkipList.scan, hread, hx]
    | some x =>
      obtain ⟨s, t, rfl, hon, hoff⟩ := nextAt_eq_some hx
      have hxn : x.ptr ≠ null := hnull x (by simp)
      obtain ⟨f, hf, -⟩ := hL (hdr :: (pre ++ s)) x t (by simp)
      by_cases hl : less x
      · have hd' := hd.step hl (by simpa using hoff) (by simpa using hon)
        obtain ⟨pre', u', post', hp, hret, hd'', hb⟩ := ih t.length (by simp; omega)
          (by simpa using hL) (by simpa using hnull) hd' rfl
        refine ⟨pre', u', post', by simpa using hp, .succ (fun n => ?_) hret, hd'', hb⟩
        simp [SkipList.scan, hread, hx, hxn, hf, (htest x f).mpr hl]
      · refine ⟨pre, u, _, rfl, .last fun n => ?_, hd, ?_⟩
        · have hfalse : test (x.node f) = false := by
            rw [Bool.eq_false_iff, Ne, htest]
            exact hl
          simp [SkipList.scan, hread, hx, hxn, hf, hfalse]
        · intro y hy
          rw [hx] at hy
          cases hy
          exact hl

/-- What is known when a scan of level `i` has ended and its last node is recorded. -/
theorem Descent.record (hd : Descent less hdr level i pre u post update)
    (hb : ∀ x, nextAt (upTo height) i post = some x → ¬ less x) :
    (∀ j, i ≤ j → j ≤ level → ∀ x, nextAt (upTo height) j post = some x → ¬ less x) ∧
    ∀ j, i ≤ j → j ≤ level → ∃ v, Function.update update i (some u.ptr) j = some v.ptr ∧
      IsLast (upTo height) j (hdr :: pre) v := by
  refine ⟨fun j hj hl => ?_, fun j hj hl => ?_⟩
  · obtain rfl | hj := Nat.eq_or_lt_of_le hj
    · exact hb
    · exact hd.blocked j hj hl
  · obtain rfl | hj := Nat.eq_or_lt_of_le hj
    · obtain ⟨q, hq⟩ := hd.last
      refine ⟨u, by simp, ?_⟩
      rw [hq]
      exact .end (by simpa using hd.on)
    · obtain ⟨v, hv, hlast⟩ := hd.recorded j hj hl
      exact ⟨v, by simp [hj.ne', hv], hlast⟩

theorem Descent.descend (hL : L.Linked (upTo height) (hdr :: (pre ++ post)))
    (hnull : ∀ x ∈ pre ++ post, x.ptr ≠ null) (htest : ∀ x f, test (x.node f) = true ↔ less x)
    (hd : Descent less hdr level i pre u post update) :
    ∃ pre' u' post' update', pre ++ post = pre' ++ post' ∧
      Fuel.Returns (fun n => L.descend test n i u.ptr update) (u'.ptr, update') ∧
      (∃ q, hdr :: pre' = q ++ [u']) ∧ Passed less height pre' ∧
      (∀ j ≤ level, ∀ x, nextAt (upTo height) j post' = some x → ¬ less x) ∧
      ∀ j ≤ level, ∃ v, update' j = some v.ptr ∧ IsLast (upTo height) j (hdr :: pre') v := by
  induction i generalizing pre u post update with
  | zero =>
    obtain ⟨pre', u', post', hp, hret, hd', hb⟩ := hd.scan hL hnull htest
    obtain ⟨hblock, hrec⟩ := hd'.record hb
    refine ⟨pre', u', post', Function.update update 0 (some u'.ptr), hp, ?_, hd'.last, hd'.passed,
      fun j hj => hblock j (Nat.zero_le j) hj, fun j hj => hrec j (Nat.zero_le j) hj⟩
    exact hret.bind (g := fun c _ => some (c, Function.update update 0 (some c))) (.some _)
  | succ i ih =>
    obtain ⟨pre₁, u₁, post₁, hp, hret, hd₁, hb⟩ := hd.scan hL hnull htest
    obtain ⟨hblock, hrec⟩ := hd₁.record hb
    have hd₂ : Descent less hdr level i pre₁ u₁ post₁
        (Function.update update (i + 1) (some u₁.ptr)) :=
      ⟨hd₁.last, by have := hd₁.on; omega, hd₁.passed, fun j hj hl => hblock j hj hl,
        fun j hj hl => hrec j hj hl⟩
    obtain ⟨pre', u', post', update', hp', hret', hrest⟩ := ih (hp ▸ hL) (hp ▸ hnull) hd₂
    refine ⟨pre', u', post', update', hp.trans hp', ?_, hrest⟩
    exact hret.bind (g := fun c n => L.descend test n i c
      (Function.update update (i + 1) (some c))) hret'

end Descent

end SkipList
end KvStore
