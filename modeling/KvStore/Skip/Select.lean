import KvStore.Skip.Invariant
import KvStore.Skip.Range

/-! What the range query selects. It skips the members below the range and takes those up to its
end, which is the whole range because the members are sorted. -/
namespace KvStore
open Member Linked

section Sorted

variable {α : Type*} {l : List α} {p q : α → Bool}

/-- Where a test goes down along a list, the elements that pass it come first. -/
theorem takeWhile_eq_filter (h : l.Pairwise fun x y => q y = true → q x = true) :
    l.takeWhile q = l.filter q := by
  induction l with
  | nil => rfl
  | cons x l ih =>
    obtain ⟨hx, hl⟩ := List.pairwise_cons.mp h
    by_cases hq : q x = true
    · rw [List.takeWhile_cons_of_pos hq, ih hl, List.filter_cons_of_pos hq]
    · rw [List.takeWhile_cons_of_neg hq, eq_comm, List.filter_eq_nil_iff]
      intro y hy
      obtain rfl | hy := List.mem_cons.mp hy
      · exact hq
      · exact fun hqy => hq (hx y hy hqy)

/-- And the others last. -/
theorem dropWhile_eq_filter (h : l.Pairwise fun x y => p y = true → p x = true) :
    l.dropWhile p = l.filter fun x => !p x := by
  induction l with
  | nil => rfl
  | cons x l ih =>
    obtain ⟨hx, hl⟩ := List.pairwise_cons.mp h
    by_cases hp : p x = true
    · rw [List.dropWhile_cons_of_pos hp, ih hl, List.filter_cons_of_neg (by simp [hp])]
    · rw [List.dropWhile_cons_of_neg hp, eq_comm, List.filter_eq_self]
      intro y hy
      obtain rfl | hy := List.mem_cons.mp hy
      · simpa using hp
      · simpa using fun hpy => hp (hx y hy hpy)

theorem scans_eq_filter (hp : l.Pairwise fun x y => p y = true → p x = true)
    (hq : l.Pairwise fun x y => q y = true → q x = true) :
    (l.dropWhile p).takeWhile q = l.filter fun x => !p x && q x := by
  rw [dropWhile_eq_filter hp, takeWhile_eq_filter (hq.filter _), List.filter_filter]
  exact List.filter_congr fun x _ => Bool.and_comm _ _

end Sorted

namespace SkipList

variable {S : Type*} {L : SkipList S} {i : ℕ} {u p : Ptr} {ps : List Ptr} {l ns : List (Member S)}

/-- The members of the list have their fields in the heap and follow one another from `p` on. -/
structure Row (L : SkipList S) (p : Ptr) (l : List (Member S)) : Prop where
  stored : ∀ x ∈ l, ∃ f, L.nodes x.ptr = some (x.node f)
  path : Path null (L.read · 0) p (l.map ptr)

theorem Row.tail {x : Member S} (h : L.Row p (x :: l)) :
    p = x.ptr ∧ p ≠ null ∧ (∃ f, L.nodes p = some (x.node f)) ∧
      ∃ q, L.read p 0 = some q ∧ L.Row q l := by
  obtain ⟨hstored, rfl, hnull, q, hq, hpath⟩ := h
  exact ⟨rfl, hnull, hstored x List.mem_cons_self, q, hq,
    fun y hy => hstored y (List.mem_cons_of_mem x hy), hpath⟩

/-- The entry that is filled in for a member. -/
def entryOf (x : Member S) : ZRangeEntry S :=
  ⟨x.key.truncate (maxKeyLen - 1), x.value.truncate (maxValueLen - 1), x.score⟩

theorem Row.zrangeStart [LT S] [DecidableLT S] (h : L.Row p l) (min : S) :
    ∃ q, Fuel.Returns (fun n => L.zrangeStart min n p) q ∧
      L.Row q (l.dropWhile fun x => x.score < min) := by
  induction l generalizing p with
  | nil =>
    obtain rfl : p = null := h.path
    exact ⟨null, .last fun n => rfl, h⟩
  | cons x l ih =>
    obtain ⟨-, hnull, ⟨f, hf⟩, q, hread, hrow⟩ := h.tail
    have hstep : ∀ n, L.zrangeStart min (n + 1) p =
        if x.score < min then L.zrangeStart min n q else some p := by
      intro n
      rw [SkipList.zrangeStart, if_pos hnull, hf, Option.bind_some, hread]
      rfl
    by_cases hmin : x.score < min
    · obtain ⟨r, hret, hr⟩ := ih hrow
      rw [List.dropWhile_cons_of_pos (by simpa using hmin)]
      exact ⟨r, .succ (fun n => (hstep n).trans (if_pos hmin)) hret, hr⟩
    · rw [List.dropWhile_cons_of_neg (by simpa using hmin)]
      exact ⟨p, .last fun n => (hstep n).trans (if_neg hmin), h⟩

theorem Row.zrangeFill [LE S] [DecidableLE S] (h : L.Row p l) (max : S) (count : ℕ) :
    L.zrangeFill max count p = some (((l.takeWhile fun x => x.score ≤ max).take count).map entryOf) := by
  induction l generalizing p count with
  | nil =>
    obtain rfl : p = null := h.path
    cases count <;> rfl
  | cons x l ih =>
    obtain ⟨-, hnull, ⟨f, hf⟩, q, hread, hrow⟩ := h.tail
    cases count with
    | zero =>
      rw [SkipList.zrangeFill, if_pos hnull, hf]
      rfl
    | succ count =>
      rw [SkipList.zrangeFill, if_pos hnull, hf, Option.bind_some, hread, Option.bind_some,
        ih hrow count]
      by_cases hmax : x.score ≤ max
      · rw [List.takeWhile_cons_of_pos (by simpa using hmax)]
        exact if_pos hmax
      · rw [List.takeWhile_cons_of_neg (by simpa using hmax)]
        exact if_neg hmax

/-- Level 0 runs through all members. -/
theorem Chain.row (h : L.Chain 0 L.header (ns.map ptr))
    (hstored : ∀ x ∈ ns, ∃ f, L.nodes x.ptr = some (x.node f)) :
    ∃ p, L.read L.header 0 = some p ∧ L.Row p ns := by
  obtain ⟨p, hread, hpath⟩ := h.path
  exact ⟨p, hread, hstored, hpath⟩

theorem WellFormed.row [LT S] [BEq S] (h : L.WellFormed ns) :
    ∃ p, L.read L.header 0 = some p ∧ L.Row p ns :=
  h.chain.row fun x hx => (h.stored x hx).imp fun _ hf => hf.1

theorem Repr.row [Zero S] (h : L.Repr ns) : ∃ p, L.read L.header 0 = some p ∧ L.Row p ns := by
  have hchain := h.linked.chain (a := []) (x := L.hdr) h.nonnull rfl (Nat.zero_le _)
  rw [List.filter_eq_self.mpr fun x _ => by simp [Levels.upTo]] at hchain
  refine Chain.row hchain fun x hx => ?_
  obtain ⟨a, b, rfl⟩ := List.append_of_mem hx
  obtain ⟨f, hf, -⟩ := h.linked (L.hdr :: a) x b rfl
  exact ⟨f, hf⟩

/-- The members from the first that is not below the range, up to the first that is not in front of
its end. -/
theorem Row.zrange [LT S] [DecidableLT S] [LE S] [DecidableLE S] (hread : L.read L.header 0 = some p)
    (h : L.Row p ns) (min max : S) (maxResults : ℕ) :
    Fuel.Returns (fun n => kvsSkiptableZrangeEntries n L min max maxResults)
      ((((ns.dropWhile fun x => x.score < min).takeWhile fun x => x.score ≤ max).take
        maxResults).map entryOf) := by
  obtain ⟨q, hret, hq⟩ := h.zrangeStart min
  simp only [kvsSkiptableZrangeEntries, hread, Option.bind_some]
  exact hret.bind (g := fun r _ => L.zrangeFill max maxResults r)
    (.of_eq fun n => hq.zrangeFill max maxResults)

theorem WellFormed.zrange [LinearOrder S] (h : L.WellFormed ns) (min max : S) (maxResults : ℕ) :
    Fuel.Returns (fun n => kvsSkiptableZrangeEntries n L min max maxResults)
      (((ns.filter fun x => min ≤ x.score ∧ x.score ≤ max).take maxResults).map entryOf) := by
  obtain ⟨p, hread, hrow⟩ := h.row
  have hsorted : ns.Pairwise fun x y => x.score ≤ y.score := by
    refine h.ordered.imp fun hxy => ?_
    obtain hlt | ⟨heq, -⟩ := hxy
    · exact hlt.le
    · exact (beq_iff_eq.mp heq).le
  have hscans := scans_eq_filter (p := fun x : Member S => decide (x.score < min))
    (q := fun x => decide (x.score ≤ max))
    (hsorted.imp fun hxy => by simpa using hxy.trans_lt)
    (hsorted.imp fun hxy => by simpa using hxy.trans)
  have hrange : (ns.filter fun x => min ≤ x.score ∧ x.score ≤ max) =
      ns.filter fun x => !decide (x.score < min) && decide (x.score ≤ max) :=
    List.filter_congr fun x _ => by
      rw [Bool.decide_and, ← decide_not, decide_eq_decide.mpr not_lt]
  rw [hrange, ← hscans]
  exact hrow.zrange hread min max maxResults

end SkipList
end KvStore
