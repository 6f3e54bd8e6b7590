import KvStore.Lib.Guarded
import KvStore.Lib.Linked
import KvStore.Cache.Shared
import KvStore.Cache.Heads

/-! The delayed returns of the central cache: when `updateSpanFreeCount` gives a span back to the
page cache, and how many of its blocks are then on the list that was counted. -/
namespace KvStore
open Memory Guarded Linked

namespace Cache

section Counting

variable {s : Caches} {n p i : ℕ} {ptrs : List ℕ} {l counts counts' : List (ℕ × ℕ)} {e : ℕ × ℕ}

/-- A list of counts is in the order of its keys, and a count is not zero. -/
def Counted (l : List (ℕ × ℕ)) : Prop := l.Pairwise (fun e e' => e.1 < e'.1) ∧ ∀ e ∈ l, e.2 ≠ 0

theorem Counted.nil : Counted [] := ⟨List.Pairwise.nil, fun _ he => absurd he List.not_mem_nil⟩

theorem Counted.setList (h : Counted l) {k m : ℕ} (hm : m ≠ 0) : Counted (setList k m l) := by
  refine ⟨?_, ?_⟩
  · replace h := h.1
    induction l with
    | nil => exact List.pairwise_singleton _ _
    | cons x l ih =>
      have hx := List.pairwise_cons.mp h
      rw [Cache.setList]
      split_ifs with hlt heq
      · refine List.pairwise_cons.mpr ⟨?_, h⟩
        intro e he
        obtain rfl | he := List.mem_cons.mp he
        · exact hlt
        · exact lt_trans hlt (hx.1 e he)
      · refine List.pairwise_cons.mpr ⟨?_, hx.2⟩
        intro e he
        exact heq ▸ hx.1 e he
      · refine List.pairwise_cons.mpr ⟨?_, ih hx.2⟩
        intro e he
        obtain rfl | he := mem_setList he
        · show x.1 < k
          omega
        · exact hx.1 e he
  · intro e he
    obtain rfl | he := mem_setList he
    · exact hm
    · exact h.2 e he

/-- A count is found under its key. -/
theorem Counted.getList (h : Counted l) (he : e ∈ l) : getList e.1 l = e.2 := by
  replace h := h.1
  induction l with
  | nil => cases he
  | cons x l ih =>
    rw [getList_cons]
    obtain ⟨hx, hl⟩ := List.pairwise_cons.mp h
    obtain rfl | he := List.mem_cons.mp he
    · exact if_pos rfl
    · rw [if_neg (hx e he).ne', ih he hl]

theorem mem_of_getList (h : getList i l ≠ 0) : (i, getList i l) ∈ l := by
  induction l with
  | nil => exact absurd rfl h
  | cons x l ih =>
    rw [getList_cons] at h ⊢
    by_cases hi : i = x.1
    · rw [if_pos hi, hi]
      exact List.mem_cons_self
    · rw [if_neg hi] at h ⊢
      exact List.mem_cons_of_mem x (ih h)

/-- The list of a class that a walk goes through to its end without leaving the trackers. -/
structure Caches.Walk (s : Caches) (n p : ℕ) (ptrs : List ℕ) : Prop where
  chain : Chain s.mem p ptrs
  rounds : ptrs.length < n
  inside : ∀ q ∈ ptrs, s.central.getFromRange q ≠ none

/-- The test whether `getFromRange` finds a tracker for a block. -/
def CentralCache.finds (c : CentralCache) (i q : ℕ) : Bool := c.getFromRange q = some (some i)

/-- What the walk of `performDelayReturn` counts. -/
theorem countFree_spec (h : s.countFree n p counts = some counts') :
    ∃ ptrs, s.Walk n p ptrs ∧ (Counted counts → Counted counts') ∧
      ∀ i, getList i counts' = getList i counts + ptrs.countP (s.central.finds i) := by
  induction n generalizing p counts with
  | zero => cases h
  | succ n ih =>
    rw [Caches.countFree] at h
    by_cases hp : p = null
    · rw [if_pos hp] at h
      cases h
      refine ⟨[], ⟨hp, Nat.succ_pos n, fun q hq => absurd hq List.not_mem_nil⟩, id, fun i => rfl⟩
    rw [if_neg hp] at h
    -- the counts behind the first block
    have hfirst : ∃ counts₁, s.countFree n (load s.mem p) counts₁ = some counts' ∧
        s.central.getFromRange p ≠ none ∧ (Counted counts → Counted counts₁) ∧
        ∀ i, getList i counts₁ = getList i counts + if s.central.finds i p then 1 else 0 := by
      cases hfind : s.central.getFromRange p with
      | none => simp [hfind] at h
      | some found =>
        cases found with
        | none =>
          simp only [hfind, Option.bind_eq_bind, Option.bind_some] at h
          exact ⟨counts, h, by simp, id, fun i => by simp [CentralCache.finds, hfind]⟩
        | some m =>
          simp only [hfind, Option.bind_eq_bind, Option.bind_some] at h
          refine ⟨_, h, by simp, fun hc => hc.setList (Nat.succ_ne_zero _), ?_⟩
          intro i
          rw [getList_setList]
          by_cases him : i = m
          · simp [CentralCache.finds, hfind, him]
          · simp [CentralCache.finds, hfind, him, Ne.symm him]
    obtain ⟨counts₁, hrest, hin, hcounted, hget⟩ := hfirst
    obtain ⟨ptrs, hwalk, hcounted', hget'⟩ := ih hrest
    refine ⟨p :: ptrs, ⟨⟨rfl, hp, hwalk.chain⟩, Nat.succ_lt_succ hwalk.rounds, ?_⟩,
      hcounted' ∘ hcounted, ?_⟩
    · exact List.forall_mem_cons.mpr ⟨hin, hwalk.inside⟩
    · intro i
      rw [hget', hget, List.countP_cons, Nat.add_assoc, Nat.add_comm (List.countP _ _)]

/-- A walk that can come back does. -/
theorem Caches.Walk.countFree (h : s.Walk n p ptrs) (counts : List (ℕ × ℕ)) :
    ∃ counts', s.countFree n p counts = some counts' := by
  induction n generalizing p ptrs counts with
  | zero => exact absurd h.rounds (Nat.not_lt_zero _)
  | succ n ih =>
    rw [Caches.countFree]
    by_cases hp : p = null
    · exact ⟨counts, if_pos hp⟩
    obtain ⟨rest, rfl, hrest⟩ := h.chain.pop hp
    have hwalk : s.Walk n (load s.mem p) rest :=
      ⟨hrest, Nat.lt_of_succ_lt_succ h.rounds, fun q hq => h.inside q (List.mem_cons_of_mem p hq)⟩
    rw [if_neg hp]
    cases hfind : s.central.getFromRange p with
    | none => exact absurd hfind (h.inside p List.mem_cons_self)
    | some found =>
      cases found with
      | none => exact ih hwalk counts
      | some m => exact ih hwalk _

end Counting

/-- The pages of a tracked span. -/
def SpanTracker.pages (x : SpanTracker) : Block := ⟨x.spanAddr, x.numPages * pageSize⟩

theorem covers_iff {x : SpanTracker} {q : ℕ} : CentralCache.covers x q = true ↔ x.pages.Has q := by
  simp [CentralCache.covers, SpanTracker.pages]

/-- The trackers that are in use. -/
def CentralCache.InUse (c : CentralCache) (i : ℕ) : Prop := i < c.spanCount ∧ i < spanTrackerNum

/-- The invariant of a run before the first span is given back: every span in use was cut into
blocks, one of which is not in `freeCount`. -/
structure Caches.Carved (s : Caches) : Prop where
  noSpans : s.page.freeSpans = []
  cut : ∀ i, s.central.InUse i → ∃ k, 1 < blockNum k ∧ s.central.spanTrackers i =
    ⟨(s.central.spanTrackers i).spanAddr, numPages (blockSize k), blockNum k - 1, blockNum k⟩
  apart : ∀ i j, s.central.InUse i → s.central.InUse j → i ≠ j →
    Apart (s.central.spanTrackers i).pages (s.central.spanTrackers j).pages

namespace Caches

variable {s s' : Caches} {n index i : ℕ} {ptrs : List ℕ}

/-- A span that is cut into blocks has eight pages. -/
theorem numPages_of_blockNum {k : ℕ} (hk : 1 < blockNum k) : numPages (blockSize k) = 8 := by
  have hsmall : blockSize k ≤ 16384 := by
    by_contra hlarge
    have hone := blockNum_le_one_iff.mpr (Nat.lt_of_not_le hlarge)
    omega
  refine if_pos (le_trans hsmall ?_)
  decide

theorem blockNum_le (k : ℕ) : blockNum k ≤ numPages (blockSize k) * pageSize := Nat.div_le_self _ _

namespace Carved

/-- The tracker of a span is found for the addresses in its pages. -/
theorem finds_iff (h : s.Carved) (hi : s.central.InUse i) {q : ℕ} :
    s.central.finds i q = true ↔ (s.central.spanTrackers i).pages.Has q := by
  rw [CentralCache.finds, decide_eq_true_iff, CentralCache.getFromRange_eq_some_iff, covers_iff]
  refine ⟨fun ⟨_, _, hq, _⟩ => hq, fun hq => ⟨hi.1, hi.2, hq, fun l hl hcov => ?_⟩⟩
  have hapart := h.apart i l hi ⟨lt_trans hl hi.1, lt_trans hl hi.2⟩ hl.ne'
  exact hapart.not_has hq (covers_iff.mp hcov)

/-- A list has no more blocks in a span than the span has bytes. -/
theorem countP_le (h : s.Carved) (hi : s.central.InUse i) (hnodup : ptrs.Nodup) :
    ptrs.countP (s.central.finds i) ≤ 32768 := by
  obtain ⟨k, hk, htracker⟩ := h.cut i hi
  have hpages : (s.central.spanTrackers i).pages.bytes = 32768 := by
    show (s.central.spanTrackers i).numPages * pageSize = 32768
    rw [htracker]
    show numPages (blockSize k) * pageSize = 32768
    rw [numPages_of_blockNum hk, pageSize]
  have hsub : ptrs.filter (s.central.finds i) ⊆
      List.range' (s.central.spanTrackers i).pages.ptr 32768 := by
    intro q hq
    have hhas := (h.finds_iff hi).mp (List.mem_filter.mp hq).2
    exact List.mem_range'_1.mpr ⟨hhas.1, hpages ▸ hhas.2⟩
  have hle := ((hnodup.filter _).subperm hsub).length_le
  rwa [← List.countP_eq_length_filter, List.length_range'] at hle

/-- `updateSpanFreeCount` gives a span back when one block of it was counted. -/
theorem gives_iff (h : s.Carved) (hi : s.central.InUse i) {m : ℕ} (hm : m ≤ 32768) :
    ((s.central.spanTrackers i).freeCount + m) % 2 ^ 64 = (s.central.spanTrackers i).blockCount ↔
      m = 1 := by
  obtain ⟨k, hk, htracker⟩ := h.cut i hi
  have hle := blockNum_le k
  rw [numPages_of_blockNum hk, pageSize] at hle
  rw [htracker]
  show (blockNum k - 1 + m) % 2 ^ 64 = blockNum k ↔ m = 1
  rw [Nat.mod_eq_of_lt (by omega)]
  omega

end Carved
/-- The state in which a delayed return at the time `now` goes through the list. -/
def timed (s : Caches) (index : ℕ) (now : ℤ) : Caches :=
  { s with central := { s.central with
      delayCounts := Function.update s.central.delayCounts index 0
      lastReturnTime := Function.update s.central.lastReturnTime index now } }

theorem performDelayReturn_eq (n : ℕ) (s : Caches) (index : ℕ) (now : ℤ)
    (arrange : List (ℕ × ℕ) → List (ℕ × ℕ)) : s.performDelayReturn n index now arrange =
      ((s.timed index now).countFree n (s.central.centralFreelist index) []).bind fun counts =>
        updateSpans n index (arrange counts) (s.timed index now) := rfl

/-- The state in which `returnRange` has put the blocks in front of the list of the class. -/
def pushed (s : Caches) (start : Ptr) (size index : ℕ) : Caches :=
  ⟨store s.mem (walkEnd s.mem (size / blockSize index - 1) start) (s.central.centralFreelist index),
    { s.central.setFreelist index start with
      delayCounts :=
        Function.update s.central.delayCounts index (s.central.delayCounts index + 1) }, s.page⟩

theorem pushed_centralFreelist (c : Caches) (start size index : ℕ) :
    (c.pushed start size index).central.centralFreelist index = start := Function.update_self ..

/-- The state in which the delayed return of such a call goes through the list. -/
def delayed (s : Caches) (start : Ptr) (size index : ℕ) (now : ℤ) : Caches :=
  (s.pushed start size index).timed index now

/-- The call goes on to `performDelayReturn`. -/
def Delays (s : Caches) (start : Ptr) (index : ℕ) (t : ℤ) : Prop :=
  ¬ (start = null ∨ freeListSize ≤ index) ∧
    s.central.shouldPerformDelayReturn index (s.central.delayCounts index + 1) t = true

theorem returnRange_eq (n : ℕ) (s : Caches) (start : Ptr) (size index : ℕ) (t now : ℤ)
    (arrange : List (ℕ × ℕ) → List (ℕ × ℕ)) : s.returnRange n start size index t now arrange =
      if start = null ∨ freeListSize ≤ index then some s
      else if s.central.shouldPerformDelayReturn index (s.central.delayCounts index + 1) t then
        performDelayReturn n (s.pushed start size index) index now arrange
      else some (s.pushed start size index) := rfl

/-- The block is on the free list of the class. -/
def OnList (s : Caches) (index q : ℕ) : Prop :=
  ∃ ptrs, Chain s.mem (s.central.centralFreelist index) ptrs ∧ q ∈ ptrs

/-- As many blocks of the span as it was cut into are on the free list of the class. -/
def WhollyFree (s : Caches) (x : SpanTracker) (index : ℕ) : Prop :=
  ∃ blocks : List ℕ, blocks.Nodup ∧ blocks.length = x.blockCount ∧
    ∀ b ∈ blocks, x.pages.Has b ∧ s.OnList index b

/-- No block of the span is on a free list. -/
def Cleared (s : Caches) (x : SpanTracker) : Prop := ∀ index q, x.pages.Has q → ¬ s.OnList index q

/-- What is asked of a call of `updateSpanFreeCount` that gives the span back. -/
def UpdateSound (n : ℕ) (s : Caches) (i newFreeBlocks index : ℕ) : Prop :=
  let x := s.central.spanTrackers i
  (x.freeCount + newFreeBlocks) % 2 ^ 64 = x.blockCount →
    s.WhollyFree x index ∧
      ∀ s', s.updateSpanFreeCount n i newFreeBlocks index = some s' → s'.Cleared x

/-- The calls of `updateSpanFreeCount` in the loop of a delayed return. -/
def UpdatesSound (n index : ℕ) : List (ℕ × ℕ) → Caches → Prop
  | [], _ => True
  | (i, newFreeBlocks) :: rest, s => UpdateSound n s i newFreeBlocks index ∧
      ∀ s', s.updateSpanFreeCount n i newFreeBlocks index = some s' → UpdatesSound n index rest s'

/-- What is asked of the part of a delayed return that follows its walk. -/
def LoopSound (s : Caches) (n index : ℕ) (arrange : List (ℕ × ℕ) → List (ℕ × ℕ)) : Prop :=
  ∀ counts, s.countFree n (s.central.centralFreelist index) [] = some counts →
    UpdatesSound n index (arrange counts) s

/-- The walk of a delayed return comes upon exactly one block of a tracked span. -/
def FindsOne (s : Caches) (n index : ℕ) : Prop :=
  ∃ ptrs, s.Walk n (s.central.centralFreelist index) ptrs ∧
    ∃ i, s.central.InUse i ∧ ptrs.countP (s.central.finds i) = 1

variable {l counts : List (ℕ × ℕ)}

/-- The counts of the walk are those of the blocks in the spans in use. -/
structure Tallied (s : Caches) (ptrs : List ℕ) (counts : List (ℕ × ℕ)) : Prop where
  entry : ∀ e ∈ counts, s.central.InUse e.1 ∧ e.2 = ptrs.countP (s.central.finds e.1)
  found : ∀ i, ptrs.countP (s.central.finds i) ≠ 0 →
    (i, ptrs.countP (s.central.finds i)) ∈ counts

theorem countFree_tallied {p : ℕ} (h : s.countFree n p [] = some counts) :
    ∃ ptrs, s.Walk n p ptrs ∧ s.Tallied ptrs counts := by
  obtain ⟨ptrs, hwalk, hcounted, hget⟩ := countFree_spec h
  replace hcounted := hcounted .nil
  replace hget : ∀ i, getList i counts = ptrs.countP (s.central.finds i) := by
    intro i
    rw [hget]
    exact Nat.zero_add _
  refine ⟨ptrs, hwalk, ?_, ?_⟩
  · intro e he
    have hval : e.2 = ptrs.countP (s.central.finds e.1) := by rw [← hget, hcounted.getList he]
    refine ⟨?_, hval⟩
    have hpos : 0 < ptrs.countP (s.central.finds e.1) := by
      have hne := hcounted.2 e he
      omega
    obtain ⟨q, -, hq⟩ := List.countP_pos_iff.mp hpos
    rw [CentralCache.finds, decide_eq_true_iff] at hq
    obtain ⟨hlt, hnum, -⟩ := CentralCache.getFromRange_eq_some_iff.mp hq
    exact ⟨hlt, hnum⟩
  · intro i hi
    rw [← hget] at hi ⊢
    exact mem_of_getList hi

/-- Only one block of a span that is given back is on the list. -/
theorem Carved.not_updateSound (h : s.Carved) (hi : s.central.InUse i)
    (hchain : Chain s.mem (s.central.centralFreelist index) ptrs)
    (hone : ptrs.countP (s.central.finds i) = 1) : ¬ UpdateSound n s i 1 index := by
  intro hsound
  have hgives := (h.gives_iff hi (m := 1) (by decide)).mpr rfl
  obtain ⟨⟨blocks, hnodup, hlength, hblocks⟩, -⟩ := hsound hgives
  obtain ⟨k, hk, htracker⟩ := h.cut i hi
  have hcount : blocks.length = blockNum k := hlength.trans (congrArg SpanTracker.blockCount htracker)
  have hsub : blocks ⊆ ptrs.filter (s.central.finds i) := by
    intro b hb
    obtain ⟨hhas, ptrs', hchain', hmem⟩ := hblocks b hb
    rw [hchain'.unique hchain] at hmem
    exact List.mem_filter.mpr ⟨hmem, (h.finds_iff hi).mpr hhas⟩
  have hle := (hnodup.subperm hsub).length_le
  rw [← List.countP_eq_length_filter, hone] at hle
  omega

/-- The loop of a delayed return does what is asked when no count is one, and then it does
nothing. -/
theorem Carved.updatesSound_iff (h : s.Carved)
    (hchain : Chain s.mem (s.central.centralFreelist index) ptrs)
    (hl : ∀ e ∈ l, s.central.InUse e.1 ∧ e.2 = ptrs.countP (s.central.finds e.1)) :
    (UpdatesSound n index l s ↔ ∀ e ∈ l, e.2 ≠ 1) ∧
      ((∀ e ∈ l, e.2 ≠ 1) → updateSpans n index l s = some s) := by
  induction l with
  | nil => exact ⟨⟨fun _ e he => absurd he List.not_mem_nil, fun _ => trivial⟩, fun _ => rfl⟩
  | cons e l ih =>
    obtain ⟨i, m⟩ := e
    obtain ⟨⟨hi, hm⟩, hrest⟩ := List.forall_mem_cons.mp hl
    dsimp only at hi hm
    obtain ⟨hiff, hkeep⟩ := ih hrest
    have hle : m ≤ 32768 := hm ▸ h.countP_le hi hchain.nodup
    have hgives := h.gives_iff hi hle
    by_cases hone : m = 1
    · subst hone
      have hnot := h.not_updateSound (n := n) hi hchain hm.symm
      refine ⟨⟨fun hs => absurd hs.1 hnot, fun hall => ?_⟩, fun hall => ?_⟩
      · exact absurd rfl (hall _ List.mem_cons_self)
      · exact absurd rfl (hall _ List.mem_cons_self)
    have hskip : s.updateSpanFreeCount n i m index = some s := if_neg (mt hgives.mp hone)
    have hsound : UpdateSound n s i m index := fun hg => absurd (hgives.mp hg) hone
    rw [List.forall_mem_cons, ← hiff]
    refine ⟨⟨fun hs => ⟨hone, hs.2 s hskip⟩, fun hall => ⟨hsound, ?_⟩⟩, fun hall => ?_⟩
    · intro s' hs'
      rw [hskip] at hs'
      cases hs'
      exact hall.2
    · rw [updateSpans, hskip]
      exact hkeep (hiff.mp hall.2)

end Caches

/-- A call of the central cache, or a change of the memory between two calls. The last argument of
`returnRange` is the number of rounds that its walks may run. -/
inductive CentralCall
  | fetchRange (index : ℕ) (node map : Ptr)
  | returnRange (start : Ptr) (size index : ℕ) (t now : ℤ)
      (arrange : List (ℕ × ℕ) → List (ℕ × ℕ)) (rounds : ℕ)
  | write (mem : ℕ → UInt8)

namespace CentralCall

/-- What the system and the `unordered_map` keep to: a new mapping has nothing in common with the
tracked spans, and each count is gone through once. -/
def Valid (s : Caches) : CentralCall → Prop
  | fetchRange index _ map => map ≠ null → ∀ r, s.central.Tracks r → Apart (span index map) r
  | returnRange _ _ _ _ _ arrange _ => ∀ l, (arrange l).Perm l
  | write _ => True

/-- A span is given back only when all its blocks are on the list it is taken from, and then none of
them is on a list any more. -/
def Sound (s : Caches) : CentralCall → Prop
  | fetchRange _ _ _ => True
  | returnRange start size index t now arrange rounds => s.Delays start index t →
      (s.delayed start size index now).LoopSound rounds index arrange
  | write _ => True

/-- No delayed return comes upon exactly one block of a tracked span. -/
def FindsNoOne (s : Caches) : CentralCall → Prop
  | fetchRange _ _ _ => True
  | returnRange start size index t now _ rounds => s.Delays start index t →
      ¬ (s.delayed start size index now).FindsOne rounds index
  | write _ => True

end CentralCall

def centralStep (s : Caches) : CentralCall → Option (Ptr × Caches)
  | .fetchRange index node map => s.fetchRange index node map
  | .returnRange start size index t now arrange rounds =>
    (s.returnRange rounds start size index t now arrange).map fun s' => (null, s')
  | .write mem => some (null, { s with mem := mem })

/-- The caches before the first call. -/
def Caches.start (mem : ℕ → UInt8) (time : ℕ → ℤ) : Caches where
  mem := mem
  central := ⟨fun _ => null, fun _ => ⟨null, 0, 0, 0⟩, 0, fun _ => 0, time⟩
  page := ⟨[], fun _ => none, fun _ => none⟩

namespace Caches

variable {s s' : Caches} {n index i : ℕ}

theorem Carved.start (mem : ℕ → UInt8) (time : ℕ → ℤ) : (start mem time).Carved where
  noSpans := rfl
  cut := fun _ hi => absurd hi.1 (Nat.not_lt_zero _)
  apart := fun _ _ hi _ _ => absurd hi.1 (Nat.not_lt_zero _)

/-- The invariant reads the trackers and the free spans only. -/
theorem Carved.congr (h : s.Carved) (hpage : s'.page.freeSpans = s.page.freeSpans)
    (hcount : s'.central.spanCount = s.central.spanCount)
    (htrackers : s'.central.spanTrackers = s.central.spanTrackers) : s'.Carved := by
  have hinUse : s'.central.InUse = s.central.InUse := by
    funext i
    rw [CentralCache.InUse, hcount]
    rfl
  refine ⟨hpage.trans h.noSpans, ?_, ?_⟩
  · rw [hinUse, htrackers]
    exact h.cut
  · rw [hinUse, htrackers]
    exact h.apart

theorem tracks_of_inUse (hi : s.central.InUse i) :
    s.central.Tracks (s.central.spanTrackers i).pages := ⟨i, hi.1, hi.2, rfl⟩

/-- The first of the unused trackers gets the new span. -/
theorem Carved.carve {start : ℕ} (h : s.Carved) (hk : 1 < blockNum index)
    (hapart : ∀ r, s.central.Tracks r → Apart (span index start) r) :
    (s.carve index start).Carved := by
  by_cases hfull : s.central.spanCount < spanTrackerNum
  · have htrackers : (s.carve index start).central.spanTrackers =
        Function.update s.central.spanTrackers s.central.spanCount
          ⟨start, numPages (blockSize index), blockNum index - 1, blockNum index⟩ := by
      unfold Caches.carve
      dsimp only
      rw [if_pos hfull]
      rfl
    have hcount : (s.carve index start).central.spanCount = s.central.spanCount + 1 := by
      unfold Caches.carve
      dsimp only
      rw [if_pos hfull]
      rfl
    have hold : ∀ j, (s.carve index start).central.InUse j → j ≠ s.central.spanCount →
        s.central.InUse j := by
      intro j hj hne
      have hlt := hj.1
      rw [hcount] at hlt
      exact ⟨by omega, hj.2⟩
    refine ⟨h.noSpans, ?_, ?_⟩
    · intro j hj
      rw [htrackers]
      by_cases hne : j = s.central.spanCount
      · rw [hne, Function.update_self]
        exact ⟨index, hk, rfl⟩
      · rw [Function.update_of_ne hne]
        exact h.cut j (hold j hj hne)
    · intro j j' hj hj' hjj
      rw [htrackers]
      by_cases hne : j = s.central.spanCount
      · have hne' : j' ≠ s.central.spanCount := fun he => hjj (hne.trans he.symm)
        rw [hne, Function.update_self, Function.update_of_ne hne']
        exact hapart _ (tracks_of_inUse (hold j' hj' hne'))
      · rw [Function.update_of_ne hne]
        by_cases hne' : j' = s.central.spanCount
        · rw [hne', Function.update_self]
          exact (hapart _ (tracks_of_inUse (hold j hj hne))).symm
        · rw [Function.update_of_ne hne']
          exact h.apart j j' (hold j hj hne) (hold j' hj' hne') hjj
  · have hcentral : (s.carve index start).central.spanTrackers = s.central.spanTrackers := by
      unfold Caches.carve
      dsimp only
      rw [if_neg hfull]
      rfl
    have hcount : (s.carve index start).central.spanCount = s.central.spanCount + 1 := by
      unfold Caches.carve
      dsimp only
      rw [if_neg hfull]
      rfl
    have hold : ∀ j, (s.carve index start).central.InUse j → s.central.InUse j := by
      intro j hj
      exact ⟨lt_of_lt_of_le hj.2 (Nat.le_of_not_lt hfull), hj.2⟩
    refine ⟨h.noSpans, ?_, ?_⟩
    · rw [hcentral]
      exact fun j hj => h.cut j (hold j hj)
    · rw [hcentral]
      exact fun j j' hj hj' => h.apart j j' (hold j hj) (hold j' hj')

/-- A span of a single block is new, so that no tracker is found for it. -/
theorem Carved.single {start : ℕ} (h : s.Carved)
    (hapart : ∀ r, s.central.Tracks r → Apart (span index start) r)
    (hs : s.single index start = some s') : s'.Carved := by
  unfold Caches.single at hs
  rw [Option.bind_eq_bind, Option.bind_eq_some_iff] at hs
  obtain ⟨found, hfind, hs⟩ := hs
  cases found with
  | none =>
    cases hs
    exact h.congr rfl rfl rfl
  | some m =>
    obtain ⟨r, hr, hhas⟩ := getFromRange_covers hfind
    have hin : (span index start).Has start := by
      refine ⟨Nat.le_refl _, Nat.lt_add_of_pos_right ?_⟩
      exact lt_of_lt_of_le (lt_of_lt_of_le (by decide) (wordBytes_le_blockSize index))
        (blockSize_le_numPages index)
    exact absurd hhas ((hapart r hr).not_has hin)

theorem Carved.fetchRange {node map : Ptr} {r : Ptr × Caches} (h : s.Carved)
    (hvalid : (CentralCall.fetchRange index node map).Valid s)
    (hr : s.fetchRange index node map = some r) : r.2.Carved := by
  by_cases hi : index < freeListSize
  · obtain ⟨-, -, he⟩ | ⟨-, -, -, he⟩ | ⟨-, hmap, -, c, -, hcentral, hspans, hcut⟩ :=
      fetchRange_cases hi h.noSpans hr
    · exact he ▸ h
    · exact he ▸ h
    have hc : c.Carved := h.congr (hspans.trans h.noSpans.symm) (by rw [hcentral]) (by rw [hcentral])
    have hapart : ∀ b, c.central.Tracks b → Apart (span index map) b := by
      rw [hcentral]
      exact hvalid hmap
    obtain ⟨hk, he⟩ | ⟨-, hsingle⟩ := hcut
    · exact he ▸ hc.carve hk hapart
    · exact hc.single hapart hsingle
  · unfold Caches.fetchRange at hr
    rw [if_pos (Nat.le_of_not_lt hi)] at hr
    cases hr
    exact h

theorem Carved.pushed (h : s.Carved) (start size index : ℕ) : (s.pushed start size index).Carved :=
  h.congr rfl rfl rfl

theorem Carved.timed (h : s.Carved) (index : ℕ) (now : ℤ) : (s.timed index now).Carved :=
  h.congr rfl rfl rfl

/-- No count is one when the walk comes upon no single block. -/
theorem Tallied.ne_one_iff {ptrs : List ℕ} {counts : List (ℕ × ℕ)} (h : s.Tallied ptrs counts)
    (hwalk : s.Walk n (s.central.centralFreelist index) ptrs) :
    (∀ e ∈ counts, e.2 ≠ 1) ↔ ¬ s.FindsOne n index := by
  constructor
  · rintro hall ⟨ptrs', hwalk', i, -, hone⟩
    rw [hwalk'.chain.unique hwalk.chain] at hone
    have hmem := h.found i (by omega)
    exact hall _ hmem hone
  · intro hno e he hone
    obtain ⟨hi, hval⟩ := h.entry e he
    exact hno ⟨ptrs, hwalk, e.1, hi, hval.symm.trans hone⟩

/-- A delayed return does what is asked when it comes upon no single block of a span. -/
theorem Carved.loopSound_iff {arrange : List (ℕ × ℕ) → List (ℕ × ℕ)} (h : s.Carved)
    (ha : ∀ l, (arrange l).Perm l) : s.LoopSound n index arrange ↔ ¬ s.FindsOne n index := by
  constructor
  · intro hsound hfinds
    obtain ⟨ptrs, hwalk, -⟩ := id hfinds
    obtain ⟨counts, hcount⟩ := hwalk.countFree []
    obtain ⟨ptrs', hwalk', htally⟩ := countFree_tallied hcount
    have hone := (h.updatesSound_iff (n := n) hwalk'.chain fun e he =>
      htally.entry e ((ha counts).mem_iff.mp he)).1.mp (hsound counts hcount)
    refine (htally.ne_one_iff hwalk').mp (fun e he => ?_) hfinds
    exact hone e ((ha counts).mem_iff.mpr he)
  · intro hno counts hcount
    obtain ⟨ptrs, hwalk, htally⟩ := countFree_tallied hcount
    refine (h.updatesSound_iff (n := n) hwalk.chain fun e he =>
      htally.entry e ((ha counts).mem_iff.mp he)).1.mpr fun e he => ?_
    exact (htally.ne_one_iff hwalk).mpr hno e ((ha counts).mem_iff.mp he)

/-- Then it changes the clocks only. -/
theorem Carved.performDelayReturn {arrange : List (ℕ × ℕ) → List (ℕ × ℕ)} {now : ℤ} (h : s.Carved)
    (ha : ∀ l, (arrange l).Perm l) (hno : ¬ (s.timed index now).FindsOne n index)
    (hr : s.performDelayReturn n index now arrange = some s') : s' = s.timed index now := by
  have hc := h.timed index now
  rw [performDelayReturn_eq, Option.bind_eq_some_iff] at hr
  obtain ⟨counts, hcount, hr⟩ := hr
  obtain ⟨ptrs, hwalk, htally⟩ := countFree_tallied hcount
  have hkeep := (hc.updatesSound_iff (n := n) hwalk.chain fun e he =>
    htally.entry e ((ha counts).mem_iff.mp he)).2 fun e he =>
      (htally.ne_one_iff hwalk).mpr hno e ((ha counts).mem_iff.mp he)
  rw [hkeep] at hr
  exact (Option.some.inj hr).symm

theorem Carved.sound_iff (h : s.Carved) {c : CentralCall} (hvalid : c.Valid s) :
    c.Sound s ↔ c.FindsNoOne s := by
  cases c with
  | fetchRange index node map => exact Iff.rfl
  | write mem => exact Iff.rfl
  | returnRange start size index t now arrange rounds =>
    exact imp_congr_right fun _ => ((h.pushed start size index).timed index now).loopSound_iff hvalid

theorem Carved.step {c : CentralCall} {r : Ptr × Caches} (h : s.Carved) (hvalid : c.Valid s)
    (hno : c.FindsNoOne s) (hr : centralStep s c = some r) : r.2.Carved := by
  cases c with
  | fetchRange index node map => exact h.fetchRange hvalid hr
  | write mem =>
    cases hr
    exact h.congr rfl rfl rfl
  | returnRange start size index t now arrange rounds =>
    obtain ⟨s', hs', rfl⟩ := Option.map_eq_some_iff.mp hr
    rw [returnRange_eq] at hs'
    by_cases hnone : start = null ∨ freeListSize ≤ index
    · rw [if_pos hnone] at hs'
      cases hs'
      exact h
    rw [if_neg hnone] at hs'
    have hpushed := h.pushed start size index
    by_cases hdelay : s.central.shouldPerformDelayReturn index
        (s.central.delayCounts index + 1) t = true
    · rw [if_pos hdelay] at hs'
      have he := hpushed.performDelayReturn hvalid (hno ⟨hnone, hdelay⟩) hs'
      exact he ▸ hpushed.timed index now
    · rw [if_neg hdelay] at hs'
      cases hs'
      exact hpushed

end Caches

/-- In every run the spans that are given back are wholly free, and none of their blocks stays on a
list, exactly when no delayed return comes upon exactly one block of a tracked span. -/
theorem centralCache_gives_back_iff (mem : ℕ → UInt8) (time : ℕ → ℤ) (calls : List CentralCall)
    (hvalid : Allowed centralStep (fun s c => c.Valid s) (.start mem time) calls) :
    Allowed centralStep (fun s c => c.Sound s) (.start mem time) calls ↔
      Allowed centralStep (fun s c => c.FindsNoOne s) (.start mem time) calls := by
  refine allowed_iff (J := Caches.Carved) ?_ ?_ (.start mem time) hvalid
  · intro s c r s' h hv hno hr
    exact h.step hv hno hr
  · intro s c h hv
    exact h.sound_iff hv

/-- The caches after one span of two blocks was cut and its first block handed out. -/
def firstLent : Caches := ((Caches.start (fun _ => 0) fun _ => 0).fetchRange 2047 1 65536).elim
  (.start (fun _ => 0) fun _ => 0) (·.2)

theorem carved_firstLent : firstLent.Carved :=
  (Caches.Carved.start (fun _ => 0) fun _ => 0).fetchRange
    (show (CentralCall.fetchRange 2047 1 65536).Valid _ from
      fun _ _ hr => absurd hr.choose_spec.1 (Nat.not_lt_zero _)) rfl

/-- The block comes back with a delayed return: both blocks are on the list, and the span stays. -/
theorem centralCache_gives_back_iff_both :
    Allowed centralStep (fun s c => c.Sound s) (.start (fun _ => 0) fun _ => 0)
        [.fetchRange 2047 1 65536, .returnRange 65536 16384 2047 delayInterval delayInterval id 3] := by
  refine (centralCache_gives_back_iff (fun _ => 0) (fun _ => 0) _ ?_).mpr ?_
  · refine Allowed.cons (fun _ r hr => ?_) (t := firstLent) (r := 65536) rfl ?_
    · exact absurd hr.choose_spec.1 (Nat.not_lt_zero _)
    · exact ⟨fun l => List.Perm.refl l, fun _ _ _ => trivial⟩
  · refine Allowed.cons trivial (t := firstLent) (r := 65536) rfl ⟨?_, fun _ _ _ => trivial⟩
    rintro - ⟨ptrs, hwalk, i, hi, hone⟩
    have hchain : Chain (firstLent.delayed 65536 16384 2047 delayInterval).mem 65536
        [65536, 81920] := ⟨rfl, by decide, rfl, by decide, rfl⟩
    have hptrs := hwalk.chain.unique hchain
    subst hptrs
    have hzero : i = 0 := Nat.lt_one_iff.mp hi.1
    subst hzero
    revert hone
    decide

/-- The caches when two spans of two blocks are cut: the blocks `65536` and `131072` were handed out
alone, and a second call for the first class was given its list, which it keeps. -/
def lent : Caches := (finish centralStep (.start (fun _ => 0) fun _ => 0)
  [.fetchRange 2047 1 65536, .fetchRange 2047 2 0, .fetchRange 2046 3 131072]).getD
    (.start (fun _ => 0) fun _ => 0)

/-- The holder of the block `81920` writes the address of the block `131072` into it, and the block
`65536` comes back with a delayed return. The walk counts one block of the second span, whose first
block is with a user and whose other block is on the list of its class. -/
theorem deallocateSpan_of_held :
    (lent.central.centralFreelist 2047 = 81920 ∧ lent.OnList 2046 147448) ∧
    Allowed centralStep (fun s c => c.Valid s) (.start (fun _ => 0) fun _ => 0)
        [.fetchRange 2047 1 65536, .fetchRange 2047 2 0, .fetchRange 2046 3 131072,
          .write (store lent.mem 81920 131072),
          .returnRange 65536 16384 2047 delayInterval delayInterval id 4] ∧
    ¬ Allowed centralStep (fun s c => c.Sound s) (.start (fun _ => 0) fun _ => 0)
        [.fetchRange 2047 1 65536, .fetchRange 2047 2 0, .fetchRange 2046 3 131072,
          .write (store lent.mem 81920 131072),
          .returnRange 65536 16384 2047 delayInterval delayInterval id 4] := by
  have hmap : ∀ r, firstLent.central.Tracks r → Apart (span 2046 131072) r := by
    rintro r ⟨k, hk, -, rfl⟩
    have hzero : k = 0 := Nat.lt_one_iff.mp hk
    subst hzero
    decide
  refine ⟨⟨rfl, [147448], ⟨rfl, by decide, rfl⟩, List.mem_singleton_self _⟩, ?_, ?_⟩
  · refine Allowed.cons (fun _ r hr => ?_) (t := firstLent) (r := 65536) rfl ?_
    · exact absurd hr.choose_spec.1 (Nat.not_lt_zero _)
    refine Allowed.cons (fun h => absurd rfl h) (t := firstLent) (r := 81920) rfl ?_
    refine Allowed.cons (fun _ => hmap) (t := lent) (r := 131072) rfl ?_
    exact Allowed.cons trivial rfl ⟨fun l => List.Perm.refl l, fun _ _ _ => trivial⟩
  · intro hsound
    have hlast := (((hsound.2 65536 firstLent rfl).2 81920 firstLent rfl).2 131072 lent rfl).2 null
      { lent with mem := store lent.mem 81920 131072 } rfl
    have hcarved : lent.Carved := carved_firstLent.fetchRange (r := (131072, lent))
      (show (CentralCall.fetchRange 2046 3 131072).Valid _ from fun _ => hmap) rfl
    have hwritten : ({ lent with mem := store lent.mem 81920 131072 } : Caches).Carved :=
      hcarved.congr rfl rfl rfl
    have hno := (hwritten.sound_iff (c := .returnRange 65536 16384 2047 delayInterval delayInterval id 4)
      fun l => List.Perm.refl l).mp hlast.1
    refine hno ⟨by decide, by decide⟩ ?_
    refine ⟨[65536, 81920, 131072], ⟨⟨rfl, by decide, rfl, by decide, rfl, by decide, rfl⟩, ?_, ?_⟩,
      1, ⟨by decide, by decide⟩, by decide⟩
    · decide
    · decide

end Cache
end KvStore
