import KvStore.Cache.Delayed

/-! Taking the blocks of a span off a central list. The loop sets the new head of the list only where
it passes over a block at the front, so that a front that stays is lost with all behind it. -/
namespace KvStore
open Memory

namespace Cache
namespace Caches

variable {s : Caches} {x : SpanTracker} {n i m index p prev newhead : ℕ} {mem : ℕ → UInt8}
  {ptrs : List ℕ}

/-- The blocks that are not in the pages of a span. -/
def others (x : SpanTracker) (ptrs : List ℕ) : List ℕ :=
  ptrs.filter fun q => !CentralCache.covers x q

theorem others_cons_of_covers {q : ℕ} (h : CentralCache.covers x q = true) :
    others x (q :: ptrs) = others x ptrs := List.filter_cons_of_neg (by simp [h])

theorem others_cons {q : ℕ} (h : ¬ CentralCache.covers x q = true) :
    others x (q :: ptrs) = q :: others x ptrs := List.filter_cons_of_pos (by simpa using h)

/-- The links of two blocks have no byte in common. -/
abbrev WordsApart (p q : ℕ) : Prop := Apart ⟨p, wordBytes⟩ ⟨q, wordBytes⟩

/-- Behind a block that stays, the loop keeps the head and links the blocks that stay. It writes
into the block and those behind it only. -/
theorem dropSpan_behind (hprev : prev ≠ null) (hlink : load mem prev = p) (h : Chain mem p ptrs)
    (hapart : (prev :: ptrs).Pairwise WordsApart) (hrounds : ptrs.length < n) :
    ∃ mem', dropSpan x n mem p prev newhead = some (mem', newhead) ∧
      Chain mem' (load mem' prev) (others x ptrs) ∧
      ∀ q, (∀ r ∈ prev :: ptrs, WordsApart q r) → load mem' q = load mem q := by
  induction n generalizing p prev mem ptrs with
  | zero => exact absurd hrounds (Nat.not_lt_zero _)
  | succ n ih =>
    rw [dropSpan]
    by_cases hp : p = null
    · obtain rfl := (h.nil_iff).mpr hp
      refine ⟨mem, if_pos hp, hlink.trans hp, fun _ _ => rfl⟩
    obtain ⟨rest, rfl, hrest⟩ := h.pop hp
    rw [if_neg hp]
    have hrounds' : rest.length < n := Nat.lt_of_succ_lt_succ hrounds
    obtain ⟨hfirst, htail⟩ := List.pairwise_cons.mp hapart
    by_cases hc : CentralCache.covers x p = true
    · have hskip : (prev :: rest).Pairwise WordsApart :=
        List.pairwise_cons.mpr ⟨fun r hr => hfirst r (List.mem_cons_of_mem p hr), htail.tail⟩
      have hchain : Chain (store mem prev (load mem p)) (load mem p) rest :=
        hrest.congr fun r hr => load_store_of_apart (hfirst r (List.mem_cons_of_mem p hr)).symm
      obtain ⟨mem', hrun, hmem', hframe⟩ := ih hprev (load_store (load_lt mem p)) hchain hskip hrounds'
      refine ⟨mem', ?_, by rwa [others_cons_of_covers hc], fun q hq => ?_⟩
      · rw [if_pos hc, if_pos hprev]
        exact hrun
      · have hq' : ∀ r ∈ prev :: rest, WordsApart q r := by
          intro r hr
          obtain rfl | hr := List.mem_cons.mp hr
          · exact hq r List.mem_cons_self
          · exact hq r (List.mem_cons_of_mem _ (List.mem_cons_of_mem p hr))
        rw [hframe q hq', load_store_of_apart (hq prev List.mem_cons_self)]
    · obtain ⟨mem', hrun, hmem', hframe⟩ := ih hp rfl hrest htail hrounds'
      refine ⟨mem', ?_, ?_, fun q hq => hframe q fun r hr => hq r (List.mem_cons_of_mem prev hr)⟩
      · rw [if_neg hc]
        exact hrun
      · rw [others_cons hc, hframe prev hfirst, hlink]
        exact ⟨rfl, hp, hmem'⟩

/-- While it has passed over all blocks so far, the new head is the next block. -/
theorem dropSpan_front (h : Chain mem p ptrs) (hapart : ptrs.Pairwise WordsApart)
    (hrounds : ptrs.length < n) : ∃ mem' newhead,
    dropSpan x n mem p null p = some (mem', newhead) ∧ Chain mem' newhead (others x ptrs) := by
  induction n generalizing p ptrs with
  | zero => exact absurd hrounds (Nat.not_lt_zero _)
  | succ n ih =>
    rw [dropSpan]
    by_cases hp : p = null
    · obtain rfl := (h.nil_iff).mpr hp
      exact ⟨mem, p, if_pos hp, hp⟩
    obtain ⟨rest, rfl, hrest⟩ := h.pop hp
    rw [if_neg hp]
    have hrounds' : rest.length < n := Nat.lt_of_succ_lt_succ hrounds
    by_cases hc : CentralCache.covers x p = true
    · obtain ⟨mem', newhead, hrun, hmem'⟩ := ih hrest hapart.tail hrounds'
      refine ⟨mem', newhead, ?_, by rwa [others_cons_of_covers hc]⟩
      rw [if_pos hc]
      exact hrun
    · obtain ⟨mem', hrun, hmem', -⟩ := dropSpan_behind hp rfl hrest hapart hrounds'
      refine ⟨mem', p, ?_, ?_⟩
      · rw [if_neg hc]
        exact hrun
      · rw [others_cons hc]
        exact ⟨rfl, hp, hmem'⟩

/-- From the start, when no head is set: a front outside of the span is not kept. -/
theorem dropSpan_spec (h : Chain mem p ptrs) (hapart : ptrs.Pairwise WordsApart)
    (hrounds : ptrs.length < n) : ∃ mem' newhead,
    dropSpan x n mem p null null = some (mem', newhead) ∧
      (Chain mem' newhead (others x ptrs) ↔ ∀ q ∈ ptrs.head?, x.pages.Has q) := by
  by_cases hp : p = null
  · obtain rfl := (h.nil_iff).mpr hp
    obtain ⟨mem', newhead, hrun, hmem'⟩ := dropSpan_front (x := x) h hapart hrounds
    rw [hp] at hrun
    rw [hp]
    exact ⟨mem', newhead, hrun, iff_of_true hmem' (by simp)⟩
  obtain ⟨rest, rfl, hrest⟩ := h.pop hp
  obtain ⟨n, rfl⟩ := Nat.exists_eq_succ_of_ne_zero (Nat.ne_of_gt (Nat.zero_lt_of_lt hrounds))
  have hrounds' : rest.length < n := Nat.lt_of_succ_lt_succ hrounds
  rw [dropSpan, if_neg hp]
  by_cases hc : CentralCache.covers x p = true
  · obtain ⟨mem', newhead, hrun, hmem'⟩ := dropSpan_front (x := x) hrest hapart.tail hrounds'
    refine ⟨mem', newhead, ?_, iff_of_true ?_ ?_⟩
    · rw [if_pos hc]
      exact hrun
    · rwa [others_cons_of_covers hc]
    · rintro q hq
      obtain rfl : p = q := Option.some.inj hq
      exact covers_iff.mp hc
  · obtain ⟨mem', hrun, -, -⟩ := dropSpan_behind hp rfl hrest hapart hrounds'
    refine ⟨mem', null, ?_, iff_of_false ?_ ?_⟩
    · rw [if_neg hc]
      exact hrun
    · rw [others_cons hc]
      exact fun hchain => hp hchain.1.symm
    · exact fun hall => hc (covers_iff.mpr (hall p rfl))

/-- When a span is given back, its blocks and no others leave the list exactly when the list is empty
or begins with a block of the span. -/
theorem updateSpanFreeCount_removes_iff
    (hchain : Chain s.mem (s.central.centralFreelist index) ptrs)
    (hapart : ptrs.Pairwise WordsApart) (hrounds : ptrs.length < n)
    (hgives : ((s.central.spanTrackers i).freeCount + m) % 2 ^ 64 =
      (s.central.spanTrackers i).blockCount)
    (hpage : (s.page.deallocateSpan n (s.central.spanTrackers i).spanAddr
      (s.central.spanTrackers i).numPages).isSome) :
    ∃ s', s.updateSpanFreeCount n i m index = some s' ∧
      (Chain s'.mem (s'.central.centralFreelist index) (others (s.central.spanTrackers i) ptrs) ↔
        ∀ q ∈ ptrs.head?, (s.central.spanTrackers i).pages.Has q) := by
  obtain ⟨mem', newhead, hdrop, hiff⟩ := dropSpan_spec (x := s.central.spanTrackers i) hchain hapart
    hrounds
  obtain ⟨page, hpage⟩ := Option.isSome_iff_exists.mp hpage
  refine ⟨⟨mem', s.central.setFreelist index newhead, page⟩, ?_, ?_⟩
  · rw [updateSpanFreeCount, if_pos hgives, hdrop, Option.bind_eq_bind, Option.bind_some, hpage]
    rfl
  · have hhead : (s.central.setFreelist index newhead).centralFreelist index = newhead :=
      Function.update_self ..
    show Chain mem' ((s.central.setFreelist index newhead).centralFreelist index) _ ↔ _
    rw [hhead]
    exact hiff

/-- The list of the one block of a span that was not handed out. -/
theorem updateSpanFreeCount_removes_iff_one : ∃ s',
    firstLent.updateSpanFreeCount 2 0 1 2047 = some s' ∧
      Chain s'.mem (s'.central.centralFreelist 2047) [] := by
  have hchain : Chain firstLent.mem (firstLent.central.centralFreelist 2047) [81920] :=
    ⟨rfl, by decide, rfl⟩
  obtain ⟨s', hrun, hiff⟩ := updateSpanFreeCount_removes_iff (n := 2) (i := 0) (m := 1) hchain
    (by simp) (by decide) rfl rfl
  refine ⟨s', hrun, hiff.mpr fun q hq => ?_⟩
  obtain rfl : 81920 = q := Option.some.inj hq
  exact ⟨by decide, by decide⟩

/-- The caches in which the delayed return of the block `65536` has counted: its list goes on with
`81920`, a block of the same span, and `131072`, a block of a second span. -/
def mixed : Caches :=
  ({ lent with mem := store lent.mem 81920 131072 } : Caches).delayed 65536 16384 2047 delayInterval

/-- The second span is given back, and the blocks of the first are lost. -/
theorem updateSpanFreeCount_loses_blocks :
    Chain mixed.mem (mixed.central.centralFreelist 2047) [65536, 81920, 131072] ∧
    others (mixed.central.spanTrackers 1) [65536, 81920, 131072] = [65536, 81920] ∧
    ∃ s', mixed.updateSpanFreeCount 4 1 1 2047 = some s' ∧ s'.central.centralFreelist 2047 = null ∧
      ¬ Chain s'.mem (s'.central.centralFreelist 2047)
        (others (mixed.central.spanTrackers 1) [65536, 81920, 131072]) := by
  have hothers : others (mixed.central.spanTrackers 1) [65536, 81920, 131072] = [65536, 81920] := by
    decide
  refine ⟨⟨rfl, by decide, rfl, by decide, rfl, by decide, rfl⟩, hothers, _, rfl, rfl, ?_⟩
  rw [hothers]
  exact fun h => absurd h.1 (by decide)

end Caches
end Cache
end KvStore
