import KvStore.Cache.Frame

/-! The trackers of the spans that were cut into blocks. There are 1024 of them, a new span gets the
next one, and `getFromRange` goes through as many as spans were cut. -/
namespace KvStore
open Memory Guarded

namespace Cache

/-- The search reads past the trackers when it has more rounds than there are trackers left and
none of them covers the address. -/
theorem searchTrackers_eq_none_iff {c : CentralCache} {a k j : ℕ} (hj : j ≤ spanTrackerNum) :
    c.searchTrackers a k j = none ↔ spanTrackerNum < j + k ∧
      ∀ l, j ≤ l → l < spanTrackerNum → CentralCache.covers (c.spanTrackers l) a ≠ true := by
  induction k generalizing j with
  | zero =>
    rw [CentralCache.searchTrackers]
    constructor
    · rintro ⟨⟩
    · rintro ⟨hlt, -⟩
      omega
  | succ k ih =>
    rw [CentralCache.searchTrackers]
    by_cases hlt : j < spanTrackerNum
    · rw [if_pos hlt]
      by_cases hc : CentralCache.covers (c.spanTrackers j) a = true
      · rw [if_pos hc]
        constructor
        · rintro ⟨⟩
        · rintro ⟨-, hnone⟩
          exact absurd hc (hnone j (le_refl j) hlt)
      · rw [if_neg hc, ih hlt]
        constructor
        · rintro ⟨hk, hnone⟩
          refine ⟨by omega, fun l hl hnum => ?_⟩
          obtain rfl | hjl := Nat.eq_or_lt_of_le hl
          · exact hc
          · exact hnone l hjl hnum
        · rintro ⟨hk, hnone⟩
          exact ⟨by omega, fun l hl hnum => hnone l (by omega) hnum⟩
    · rw [if_neg hlt]
      refine ⟨fun _ => ⟨by omega, fun l hl hnum => ?_⟩, fun _ => rfl⟩
      omega

namespace CentralCache

variable {c c' : CentralCache} {a m : ℕ}

theorem getFromRange_eq_none_iff : c.getFromRange a = none ↔ spanTrackerNum < c.spanCount ∧
    ∀ l < spanTrackerNum, covers (c.spanTrackers l) a ≠ true := by
  rw [getFromRange, searchTrackers_eq_none_iff (Nat.zero_le _), Nat.zero_add]
  exact and_congr_right' ⟨fun h l hl => h l (Nat.zero_le l) hl, fun h l _ hl => h l hl⟩

/-- The trackers have the spans that they had. -/
structure SameSpans (c c' : CentralCache) : Prop where
  count : c'.spanCount = c.spanCount
  addr : ∀ i, (c'.spanTrackers i).spanAddr = (c.spanTrackers i).spanAddr
  pages : ∀ i, (c'.spanTrackers i).numPages = (c.spanTrackers i).numPages

theorem SameSpans.of_eq (hcount : c'.spanCount = c.spanCount)
    (htrackers : c'.spanTrackers = c.spanTrackers) : SameSpans c c' :=
  ⟨hcount, fun i => by rw [htrackers], fun i => by rw [htrackers]⟩

theorem SameSpans.trans {c'' : CentralCache} (h : SameSpans c c') (h' : SameSpans c' c'') :
    SameSpans c c'' :=
  ⟨h'.count.trans h.count, fun i => (h'.addr i).trans (h.addr i),
    fun i => (h'.pages i).trans (h.pages i)⟩

theorem SameSpans.covers_eq (h : SameSpans c c') (i a : ℕ) :
    covers (c'.spanTrackers i) a = covers (c.spanTrackers i) a := by
  rw [covers, covers, h.addr, h.pages]

theorem SameSpans.getFromRange_eq (h : SameSpans c c') (a : ℕ) :
    c'.getFromRange a = c.getFromRange a := by
  rw [getFromRange, getFromRange, h.count]
  generalize c.spanCount = k
  generalize 0 = j
  induction k generalizing j with
  | zero => rfl
  | succ k ih => rw [searchTrackers, searchTrackers, h.covers_eq, ih]

end CentralCache

namespace Caches
open CentralCache

variable {c c' : Caches} {n index i start size node map p : ℕ} {t now : ℤ}
  {arrange : List (ℕ × ℕ) → List (ℕ × ℕ)}

theorem updateSpanFreeCount_sameSpans {k : ℕ} (h : c.updateSpanFreeCount n i k index = some c') :
    SameSpans c.central c'.central := by
  unfold Caches.updateSpanFreeCount at h
  dsimp only at h
  split_ifs at h
  · obtain ⟨⟨mem, head⟩, -, h⟩ := Option.bind_eq_some_iff.mp h
    obtain ⟨page, -, h⟩ := Option.bind_eq_some_iff.mp h
    cases h
    exact .of_eq rfl rfl
  · cases h
    exact .of_eq rfl rfl

theorem updateSpans_sameSpans {counts : List (ℕ × ℕ)} (h : updateSpans n index counts c = some c') :
    SameSpans c.central c'.central := by
  induction counts generalizing c with
  | nil =>
    cases h
    exact .of_eq rfl rfl
  | cons e counts ih =>
    obtain ⟨c₁, hone, h⟩ := Option.bind_eq_some_iff.mp h
    exact (updateSpanFreeCount_sameSpans hone).trans (ih h)

theorem returnRange_sameSpans (h : c.returnRange n start size index t now arrange = some c') :
    SameSpans c.central c'.central := by
  rw [returnRange_eq] at h
  split_ifs at h
  · cases h
    exact .of_eq rfl rfl
  · rw [performDelayReturn_eq] at h
    obtain ⟨counts, -, h⟩ := Option.bind_eq_some_iff.mp h
    have hsame := updateSpans_sameSpans h
    exact ⟨hsame.count, hsame.addr, hsame.pages⟩
  · cases h
    exact .of_eq rfl rfl

theorem single_sameSpans (h : c.single index start = some c') : SameSpans c.central c'.central := by
  unfold Caches.single at h
  obtain ⟨found, -, h⟩ := Option.bind_eq_some_iff.mp h
  cases found with
  | none =>
    cases h
    exact .of_eq rfl rfl
  | some m =>
    cases h
    refine ⟨rfl, fun i => ?_, fun i => ?_⟩
    all_goals
      dsimp only [setTracker]
      rw [Function.update_apply]
      split_ifs with hi
      · rw [hi]
        rfl
      · rfl

theorem single_of_past {x : CentralCache} (h : x.getFromRange start = none) (mem : ℕ → UInt8)
    (page : PageCache) : Caches.single ⟨mem, x, page⟩ index start = none := by
  have hsame : SameSpans x (x.setFreelist index (load mem start)) := .of_eq rfl rfl
  unfold Caches.single
  dsimp only
  rw [hsame.getFromRange_eq, h]
  rfl

/-- The span that a call of `fetchRange` cuts: the list of the class is empty, a span of the class
has more than one block, and the page cache has pages for it. -/
def cutSpan (c : Caches) (index : ℕ) (map : Ptr) : Option Ptr :=
  if index < freeListSize ∧ c.central.centralFreelist index = null ∧ 1 < blockNum index then
    (c.page.offer (numPages (blockSize index)) map).filter (· ≠ null)
  else none

theorem cutSpan_eq_some_iff : c.cutSpan index map = some p ↔
    (index < freeListSize ∧ c.central.centralFreelist index = null ∧ 1 < blockNum index) ∧
      c.page.offer (numPages (blockSize index)) map = some p ∧ p ≠ null := by
  unfold cutSpan
  split_ifs with h
  · simp [h, Option.filter_eq_some_iff]
  · simp [h]

/-- Such a call puts the span behind the last one, where there is a tracker left. -/
theorem fetchRange_of_cutSpan (h : c.cutSpan index map = some p) (node : ℕ) :
    ∃ c', c.fetchRange index node map = some (p, c') ∧
      c'.central.spanCount = c.central.spanCount + 1 ∧
      c'.central.spanTrackers = if c.central.spanCount < spanTrackerNum then
        Function.update c.central.spanTrackers c.central.spanCount
          ⟨p, numPages (blockSize index), blockNum index - 1, blockNum index⟩
        else c.central.spanTrackers := by
  obtain ⟨⟨hi, hempty, hn⟩, hoffer, hp⟩ := cutSpan_eq_some_iff.mp h
  obtain ⟨page, mem, halloc⟩ := PageCache.allocateSpan_of_offer hoffer c.mem node
  refine ⟨(Caches.mk mem c.central page).carve index p, ?_, ?_, ?_⟩
  · rw [fetchRange, if_neg (Nat.not_le.mpr hi), if_neg (not_not.mpr hempty), fetchFromPageCache_eq,
      askedPages_eq, halloc]
    dsimp only [Option.map_some, Option.bind_eq_bind, Option.bind_some]
    rw [if_neg hp, if_pos hn]
  · unfold Caches.carve
    dsimp only
    split_ifs
    · rfl
    · rfl
  · unfold Caches.carve
    dsimp only
    split_ifs
    · rfl
    · rfl

theorem fetchRange_sameSpans (h : c.fetchRange index node map = some (p, c'))
    (hcut : c.cutSpan index map = none) : SameSpans c.central c'.central := by
  rw [fetchRange] at h
  by_cases hi : freeListSize ≤ index
  · rw [if_pos hi] at h
    cases h
    exact .of_eq rfl rfl
  rw [if_neg hi] at h
  by_cases hempty : c.central.centralFreelist index = null
  swap
  · rw [if_pos hempty] at h
    cases h
    exact .of_eq rfl rfl
  rw [if_neg (not_not.mpr hempty)] at h
  obtain ⟨⟨q, c₁⟩, hfetch, h⟩ := Option.bind_eq_some_iff.mp h
  rw [fetchFromPageCache_eq, askedPages_eq] at hfetch
  obtain ⟨⟨q, page, mem⟩, halloc, hfetch⟩ := Option.map_eq_some_iff.mp hfetch
  cases hfetch
  have hoffer := (PageCache.allocateSpan_offer halloc).1
  dsimp only at h
  by_cases hq : q = null
  · rw [if_pos hq] at h
    cases h
    exact .of_eq rfl rfl
  rw [if_neg hq, if_neg] at h
  · obtain ⟨c₂, hsingle, h⟩ := Option.bind_eq_some_iff.mp h
    cases h
    have hsame := single_sameSpans hsingle
    exact ⟨hsame.count, hsame.addr, hsame.pages⟩
  · intro hn
    have hsome := cutSpan_eq_some_iff.mpr ⟨⟨Nat.not_le.mp hi, hempty, hn⟩, hoffer, hq⟩
    rw [hcut] at hsome
    cases hsome

end Caches

/-- The span that a call cuts, behind its class. -/
def CentralCall.cuts (s : Caches) : CentralCall → List (ℕ × Ptr)
  | .fetchRange index _ map => (s.cutSpan index map).toList.map fun p => (index, p)
  | .returnRange _ _ _ _ _ _ _ => []
  | .write _ => []

/-- A call of the central cache with a ghost record of the spans that were cut so far. -/
def cutStep (s : Caches × List (ℕ × Ptr)) (c : CentralCall) :
    Option (Ptr × Caches × List (ℕ × Ptr)) :=
  (centralStep s.1 c).map fun r => (r.1, r.2, s.2 ++ c.cuts s.1)

/-- For no address `getFromRange` reads past the trackers. For each block of a span that was cut, it
gives the tracker that the span got when it was cut. -/
structure SpansFound (s : Caches) (cut : List (ℕ × Ptr)) : Prop where
  inBounds : ∀ a, s.central.getFromRange a ≠ none
  recorded : ∀ k index start, cut[k]? = some (index, start) →
    (s.central.spanTrackers k).spanAddr = start ∧
      (s.central.spanTrackers k).numPages = Caches.numPages (blockSize index)
  found : ∀ k index start, cut[k]? = some (index, start) →
    ∀ q ∈ cells start (blockSize index) 0 (Caches.blockNum index),
      s.central.getFromRange q = some (some k)

/-- A call that cuts a span does so while a tracker is left, and no tracker that was filled in covers
a block of the span. -/
def CentralCall.FindsRoom (s : Caches) (c : CentralCall) : Prop :=
  ∀ x ∈ c.cuts s, s.central.spanCount < spanTrackerNum ∧
    ∀ q ∈ cells x.2 (blockSize x.1) 0 (Caches.blockNum x.1), ∀ i < s.central.spanCount,
      CentralCache.covers (s.central.spanTrackers i) q ≠ true

/-- The invariant of a run: the trackers that were filled in are those of the spans that were cut. -/
structure Tracked (s : Caches) (cut : List (ℕ × Ptr)) : Prop where
  length : cut.length = s.central.spanCount
  le : s.central.spanCount ≤ spanTrackerNum
  found : SpansFound s cut

section Tracked
open CentralCache

variable {s s' : Caches} {cut : List (ℕ × Ptr)} {index node map p : ℕ}

theorem SpansFound.congr (h : SpansFound s cut) (hsame : SameSpans s.central s'.central) :
    SpansFound s' cut := by
  refine ⟨fun a => ?_, fun k index start hk => ?_, fun k index start hk q hq => ?_⟩
  · rw [hsame.getFromRange_eq]
    exact h.inBounds a
  · rw [hsame.addr, hsame.pages]
    exact h.recorded k index start hk
  · rw [hsame.getFromRange_eq]
    exact h.found k index start hk q hq

theorem Tracked.congr (h : Tracked s cut) (hsame : SameSpans s.central s'.central) :
    Tracked s' cut :=
  ⟨h.length.trans hsame.count.symm, hsame.count ▸ h.le, h.found.congr hsame⟩

theorem Tracked.start (mem : ℕ → UInt8) (time : ℕ → ℤ) : Tracked (.start mem time) [] := by
  refine ⟨rfl, Nat.zero_le _, fun a ha => ?_, fun k index start hk => ?_, fun k index start hk => ?_⟩
  · cases ha
  · cases hk
  · cases hk

/-- The block of a span that was just cut is in the pages of its tracker. -/
theorem covers_cell {x : SpanTracker} {q : ℕ} (haddr : x.spanAddr = p)
    (hpages : x.numPages = Caches.numPages (blockSize index))
    (hq : q ∈ cells p (blockSize index) 0 (Caches.blockNum index)) : covers x q = true := by
  obtain ⟨j, -, hj, rfl⟩ := mem_cells.mp hq
  rw [Nat.zero_add] at hj
  have hpos : 0 < blockSize index := lt_of_lt_of_le (by decide) (wordBytes_le_blockSize index)
  have hin : (span index p).Has (p + j * blockSize index) :=
    (cell_inside p hj).has ⟨le_refl _, Nat.lt_add_of_pos_right hpos⟩
  rw [covers_iff, SpanTracker.pages, haddr, hpages]
  exact hin

/-- A new span is found like the others exactly when a tracker was left for it and no other one comes
before its own. -/
theorem Tracked.cut_iff (h : Tracked s cut)
    (hcount : s'.central.spanCount = s.central.spanCount + 1)
    (htrackers : s'.central.spanTrackers = if s.central.spanCount < spanTrackerNum then
      Function.update s.central.spanTrackers s.central.spanCount
        ⟨p, Caches.numPages (blockSize index), Caches.blockNum index - 1, Caches.blockNum index⟩
      else s.central.spanTrackers) (hn : 1 < Caches.blockNum index) :
    SpansFound s' (cut ++ [(index, p)]) ↔ s.central.spanCount < spanTrackerNum ∧
      ∀ q ∈ cells p (blockSize index) 0 (Caches.blockNum index), ∀ i < s.central.spanCount,
        covers (s.central.spanTrackers i) q ≠ true := by
  have hold : ∀ i < s.central.spanCount, s'.central.spanTrackers i = s.central.spanTrackers i := by
    intro i hi
    rw [htrackers]
    split_ifs
    · exact Function.update_of_ne hi.ne _ _
    · rfl
  have hlast : (cut ++ [(index, p)])[s.central.spanCount]? = some (index, p) := by
    rw [← h.length]
    simp
  constructor
  · intro hfound
    have hq := fun q hq =>
      getFromRange_eq_some_iff.mp (hfound.found s.central.spanCount index p hlast q hq)
    have hfirst : p + 0 * blockSize index ∈ cells p (blockSize index) 0 (Caches.blockNum index) :=
      mem_cells.mpr ⟨0, le_refl 0, by omega, rfl⟩
    refine ⟨(hq _ hfirst).2.1, fun q hmem i hi => ?_⟩
    rw [← hold i hi]
    exact (hq q hmem).2.2.2 i hi
  · rintro ⟨hlt, hfree⟩
    rw [if_pos hlt] at htrackers
    have hself : s'.central.spanTrackers s.central.spanCount =
        ⟨p, Caches.numPages (blockSize index), Caches.blockNum index - 1, Caches.blockNum index⟩ := by
      rw [htrackers, Function.update_self]
    have hcases : ∀ k x, (cut ++ [(index, p)])[k]? = some x →
        k < s.central.spanCount ∧ cut[k]? = some x ∨ k = s.central.spanCount ∧ x = (index, p) := by
      intro k x hk
      by_cases hlen : k < cut.length
      · rw [List.getElem?_append_left hlen] at hk
        exact .inl ⟨h.length ▸ hlen, hk⟩
      · have hlt := (List.getElem?_eq_some_iff.mp hk).1
        rw [List.length_append, List.length_singleton] at hlt
        obtain rfl : k = s.central.spanCount := by
          rw [← h.length]
          omega
        rw [hlast] at hk
        exact .inr ⟨rfl, (Option.some.inj hk).symm⟩
    refine ⟨fun a ha => ?_, fun k i start hk => ?_, fun k i start hk q hq => ?_⟩
    · have hpast := (getFromRange_eq_none_iff.mp ha).1
      omega
    · obtain ⟨hlt', hk⟩ | ⟨rfl, hx⟩ := hcases k _ hk
      · rw [hold k hlt']
        exact h.found.recorded k i start hk
      · cases hx
        rw [hself]
        exact ⟨rfl, rfl⟩
    · obtain ⟨hlt', hk⟩ | ⟨rfl, hx⟩ := hcases k _ hk
      · obtain ⟨hm, hnum, hcov, hbefore⟩ := getFromRange_eq_some_iff.mp (h.found.found k i start hk q hq)
        refine getFromRange_eq_some_iff.mpr ⟨by omega, hnum, ?_, fun l hl => ?_⟩
        · rwa [hold k hlt']
        · rw [hold l (hl.trans hlt')]
          exact hbefore l hl
      · cases hx
        refine getFromRange_eq_some_iff.mpr ⟨by omega, hlt, ?_, fun l hl => ?_⟩
        · exact covers_cell (by rw [hself]) (by rw [hself]) hq
        · rw [hold l hl]
          exact hfree q hq l hl

/-- What a call does to the trackers: it leaves their spans alone, or it cuts a span and puts it
behind the last one, where a tracker is left. -/
theorem centralStep_cases {c : CentralCall} {r : Ptr × Caches} (hr : centralStep s c = some r) :
    (c.cuts s = [] ∧ SameSpans s.central r.2.central) ∨
    ∃ index p, c.cuts s = [(index, p)] ∧ 1 < Caches.blockNum index ∧
      r.2.central.spanCount = s.central.spanCount + 1 ∧
      r.2.central.spanTrackers = if s.central.spanCount < spanTrackerNum then
        Function.update s.central.spanTrackers s.central.spanCount
          ⟨p, Caches.numPages (blockSize index), Caches.blockNum index - 1, Caches.blockNum index⟩
        else s.central.spanTrackers := by
  cases c with
  | fetchRange index node map =>
    rw [CentralCall.cuts]
    cases hcut : s.cutSpan index map with
    | none => exact .inl ⟨rfl, Caches.fetchRange_sameSpans hr hcut⟩
    | some p =>
      obtain ⟨s', hs', hcount, htrackers⟩ := Caches.fetchRange_of_cutSpan hcut node
      obtain rfl : r = (p, s') := Option.some.inj (hr.symm.trans hs')
      exact .inr ⟨index, p, rfl, (Caches.cutSpan_eq_some_iff.mp hcut).1.2.2, hcount, htrackers⟩
  | returnRange start size index t now arrange rounds =>
    obtain ⟨s', hs', rfl⟩ := Option.map_eq_some_iff.mp hr
    exact .inl ⟨rfl, Caches.returnRange_sameSpans hs'⟩
  | write mem =>
    cases hr
    exact .inl ⟨rfl, .of_eq rfl rfl⟩

theorem Tracked.step_iff (h : Tracked s cut) {c : CentralCall} {r : Ptr × Caches}
    (hr : centralStep s c = some r) : SpansFound r.2 (cut ++ c.cuts s) ↔ c.FindsRoom s := by
  rw [CentralCall.FindsRoom]
  obtain ⟨hcuts, hsame⟩ | ⟨index, p, hcuts, hn, hcount, htrackers⟩ := centralStep_cases hr
  · rw [hcuts, List.append_nil]
    exact iff_of_true (h.found.congr hsame) (List.forall_mem_nil _)
  · rw [hcuts, List.forall_mem_singleton]
    exact h.cut_iff hcount htrackers hn

theorem Tracked.step (h : Tracked s cut) {c : CentralCall} {r : Ptr × Caches}
    (hr : centralStep s c = some r) (hroom : c.FindsRoom s) : Tracked r.2 (cut ++ c.cuts s) := by
  have hfound := (h.step_iff hr).mpr hroom
  rw [CentralCall.FindsRoom] at hroom
  obtain ⟨hcuts, hsame⟩ | ⟨index, p, hcuts, hn, hcount, -⟩ := centralStep_cases hr
  · rw [hcuts, List.append_nil]
    exact h.congr hsame
  · rw [hcuts] at hfound hroom ⊢
    obtain ⟨hlt, -⟩ := hroom _ (List.mem_singleton_self _)
    refine ⟨?_, hcount ▸ hlt, hfound⟩
    rw [List.length_append, List.length_singleton, hcount, h.length]

/-- A call that finds no room comes back all the same. -/
theorem centralStep_of_not_findsRoom {c : CentralCall} (hno : ¬ c.FindsRoom s) :
    ∃ r, centralStep s c = some r := by
  rw [CentralCall.FindsRoom] at hno
  push Not at hno
  obtain ⟨x, hx, -⟩ := hno
  cases c with
  | fetchRange index node map =>
    rw [CentralCall.cuts, List.mem_map] at hx
    obtain ⟨p, hp, -⟩ := hx
    obtain ⟨s', hs', -⟩ := Caches.fetchRange_of_cutSpan (Option.mem_toList.mp hp) node
    exact ⟨(p, s'), hs'⟩
  | returnRange start size index t now arrange rounds => cases hx
  | write mem => cases hx

end Tracked

/-- In every run `getFromRange` stays within the trackers and finds every span that was cut by each of
its blocks, exactly when each span is cut while a tracker is left and no other tracker covers one of
its blocks. -/
theorem centralCache_tracks_iff (mem : ℕ → UInt8) (time : ℕ → ℤ) (calls : List CentralCall) :
    Whenever cutStep (fun _ _ _ s' => SpansFound s'.1 s'.2) (.start mem time, []) calls ↔
      Allowed cutStep (fun s c => c.FindsRoom s.1) (.start mem time, []) calls := by
  refine whenever_iff (J := fun s => Tracked s.1 s.2) ?_ ?_ (Tracked.start mem time) calls
  · rintro s c r s' h hroom hr
    obtain ⟨r', hr', hs'⟩ := Option.map_eq_some_iff.mp hr
    cases hs'
    have h' := h.step hr' hroom
    exact ⟨h'.found, h'⟩
  · intro s c h hno
    obtain ⟨r, hr⟩ := centralStep_of_not_findsRoom hno
    refine ⟨r.1, (r.2, s.2 ++ c.cuts s.1), ?_, fun hfound => hno ((h.step_iff hr).mp hfound)⟩
    rw [cutStep, hr]
    rfl

section Overrun
open CentralCache

/-- A call for the blocks of the next size class, with the next eight pages from `mmap`. -/
def nextCut (k : ℕ) : CentralCall := .fetchRange k k (65536 * (k + 1))

/-- The caches after such calls for the first classes. -/
structure Filled (n : ℕ) (s : Caches) : Prop where
  count : s.central.spanCount = n
  noSpans : s.page.freeSpans = []
  empty : ∀ k, n ≤ k → s.central.centralFreelist k = null
  spans : ∀ i < n, i < spanTrackerNum → (s.central.spanTrackers i).spanAddr = 65536 * (i + 1) ∧
    (s.central.spanTrackers i).numPages = 8

variable {s : Caches} {n k : ℕ}

theorem Filled.start (mem : ℕ → UInt8) (time : ℕ → ℤ) : Filled 0 (.start mem time) where
  count := rfl
  noSpans := rfl
  empty := fun _ _ => rfl
  spans := fun _ hi => absurd hi (Nat.not_lt_zero _)

theorem blockNum_of_lt (hk : k < 2047) : 1 < Caches.blockNum k := by
  by_contra hle
  have hlarge := blockNum_le_one_iff.mp (Nat.not_lt.mp hle)
  unfold blockSize alignment at hlarge
  omega

/-- Each call cuts a span of its own. -/
theorem Filled.next (h : Filled n s) (hn : n < 2047) :
    (nextCut n).Valid s ∧ (nextCut n).cuts s = [(n, 65536 * (n + 1))] ∧
      ∃ s', centralStep s (nextCut n) = some (65536 * (n + 1), s') ∧ Filled (n + 1) s' := by
  have hblocks := blockNum_of_lt hn
  have hpages := Caches.numPages_of_blockNum hblocks
  have hmap : 65536 * (n + 1) ≠ null := Nat.mul_ne_zero (by decide) (Nat.succ_ne_zero n)
  have hi : n < freeListSize := hn.trans (by decide)
  have hcut : s.cutSpan n (65536 * (n + 1)) = some (65536 * (n + 1)) := by
    refine Caches.cutSpan_eq_some_iff.mpr ⟨⟨hi, h.empty n (le_refl n), hblocks⟩, ?_, hmap⟩
    rw [PageCache.offer, h.noSpans]
    rfl
  refine ⟨fun _ r hr => ?_, ?_, ?_⟩
  · obtain ⟨j, hj, hnum, rfl⟩ := hr
    rw [h.count] at hj
    obtain ⟨haddr, hnumPages⟩ := h.spans j hj hnum
    rw [span, hpages, haddr, hnumPages, apart_mk, pageSize]
    omega
  · rw [nextCut, CentralCall.cuts, hcut]
    rfl
  · obtain ⟨s', hs', hcount, htrackers⟩ := Caches.fetchRange_of_cutSpan hcut n
    obtain ⟨hne, -⟩ | ⟨-, hnull, -⟩ | ⟨-, -, -, c, -, hcentral, hspans, hcarve⟩ :=
      fetchRange_cases hi h.noSpans hs'
    · exact absurd (h.empty n (le_refl n)) hne
    · exact absurd hnull hmap
    obtain ⟨-, rfl⟩ | ⟨hone, -⟩ := hcarve
    swap
    · exact absurd hblocks (Nat.not_lt.mpr hone)
    refine ⟨_, hs', by rw [hcount, h.count], hspans, fun k hk => ?_, fun i hi' hnum => ?_⟩
    · rw [carve_centralFreelist, hcentral, Function.update_of_ne (by omega)]
      exact h.empty k (by omega)
    · rw [htrackers, h.count]
      split_ifs with hlt
      · by_cases hin : i = n
        · rw [hin, Function.update_self]
          exact ⟨rfl, hpages⟩
        · rw [Function.update_of_ne hin]
          exact h.spans i (by omega) hnum
      · exact h.spans i (by omega) hnum

theorem Filled.run (h : Filled k s) (hn : k + n ≤ 2047) (cut : List (ℕ × Ptr)) :
    Allowed centralStep (fun s c => c.Valid s) s ((List.range' k n).map nextCut) ∧
    ∃ s', finish cutStep (s, cut) ((List.range' k n).map nextCut) =
      some (s', cut ++ (List.range' k n).map fun i => (i, 65536 * (i + 1))) ∧ Filled (k + n) s' := by
  induction n generalizing k s cut with
  | zero => exact ⟨trivial, s, by rw [List.range'_zero, List.map_nil, List.map_nil, List.append_nil]; rfl, h⟩
  | succ n ih =>
    obtain ⟨hvalid, hcuts, s₁, hs₁, h₁⟩ := h.next (by omega)
    obtain ⟨hall, s', hrun, h'⟩ := ih h₁ (by omega) (cut ++ [(k, 65536 * (k + 1))])
    have hstep : cutStep (s, cut) (nextCut k) =
        some (65536 * (k + 1), s₁, cut ++ [(k, 65536 * (k + 1))]) := by
      rw [cutStep, hs₁, Option.map_some, hcuts]
    rw [List.range'_succ, List.map_cons, List.map_cons]
    refine ⟨.cons hvalid hs₁ hall, s', ?_, by rwa [Nat.add_right_comm] at h'⟩
    rw [finish, hstep, Option.bind_some, hrun, List.append_assoc, List.singleton_append]

/-- The search passes all trackers and goes on. -/
theorem Filled.past (h : Filled 1025 s) {a : ℕ} (ha : 65536 * 1025 ≤ a) :
    s.central.getFromRange a = none := by
  refine getFromRange_eq_none_iff.mpr ⟨h.count ▸ (by decide), fun l hl hcov => ?_⟩
  obtain ⟨haddr, hpages⟩ := h.spans l (hl.trans (by decide)) hl
  have hin := (covers_iff.mp hcov).2
  rw [SpanTracker.pages, haddr, hpages, pageSize] at hin
  dsimp only at hin
  unfold spanTrackerNum at hl
  omega

/-- One span more than there are trackers. -/
def manyCuts : List CentralCall := (List.range' 0 1025).map nextCut

/-- The blocks of the last span are not found, and `getFromRange` reads past the trackers for them. The
next call for a class with one block in a span does so too. -/
theorem getFromRange_reads_past_trackers :
    Allowed centralStep (fun s c => c.Valid s) (.start (fun _ => 0) fun _ => 0) manyCuts ∧
    (∃ s cut, finish cutStep (.start (fun _ => 0) fun _ => 0, []) manyCuts = some (s, cut) ∧
      (1024, 67174400) ∈ cut ∧ s.central.getFromRange 67174400 = none ∧
      s.central.getFromRange 134217728 = none ∧ ∀ node, s.fetchRange 4095 node 134217728 = none) ∧
    ¬ Whenever cutStep (fun _ _ _ s' => SpansFound s'.1 s'.2)
      (.start (fun _ => 0) fun _ => 0, []) manyCuts := by
  have hstart := Filled.start (fun _ => 0) fun _ => 0
  obtain ⟨hvalid, s, hrun, h⟩ := hstart.run (n := 1025) (by decide) []
  rw [Nat.zero_add] at h
  refine ⟨hvalid, ⟨s, _, hrun, ?_, h.past (by decide), h.past (by decide), fun node => ?_⟩, ?_⟩
  · rw [List.nil_append]
    exact List.mem_map.mpr ⟨1024, List.mem_range'_1.mpr ⟨by decide, by decide⟩, rfl⟩
  · have hblocks : ¬ 1 < Caches.blockNum 4095 := by decide
    rw [Caches.fetchRange, if_neg (by decide), if_neg (not_not.mpr (h.empty 4095 (by decide))),
      fetchFromPageCache_of_nil (by decide) h.noSpans, if_neg (by decide)]
    dsimp only [Option.bind_eq_bind, Option.bind_some]
    have hpast : s.central.getFromRange 134217728 = none := h.past (by decide)
    rw [if_neg (by decide), if_neg hblocks, Caches.single_of_past hpast]
    rfl
  · intro hfound
    obtain ⟨-, s₁, hrun₁, h₁⟩ := hstart.run (n := 1024) (by decide) []
    rw [Nat.zero_add] at h₁
    obtain ⟨-, -, s₂, hs₂, h₂⟩ := h₁.next (by decide)
    have hsplit : manyCuts = (List.range' 0 1024).map nextCut ++ [nextCut 1024] := by
      rw [manyCuts, List.range'_concat, List.map_append]
      rfl
    rw [hsplit] at hfound
    have hstep : ∀ cut, cutStep (s₁, cut) (nextCut 1024) =
        some (65536 * (1024 + 1), s₂, cut ++ (nextCut 1024).cuts s₁) := by
      intro cut
      rw [cutStep, hs₂]
      rfl
    exact (hfound.last hrun₁ (hstep _)).inBounds _ (h₂.past (le_refl _))

end Overrun

end Cache
end KvStore
