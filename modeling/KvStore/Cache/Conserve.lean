import KvStore.Cache.Pages

/-! The calls of the page cache keep the tiling, so over every run no page is lost and none is handed
out twice. -/
namespace KvStore
open Memory Linked Guarded

namespace Cache
open PageCache

/-- The search of `deallocateSpan` for the span behind: whether it was on a free list, what that
list starts with then, and the memory of the spans. -/
def PageCache.searchNext (n : ℕ) (pc : PageCache) (q : Ptr) (nextSpan : Span) :
    Option (Bool × Ptr × (Ptr → Option Span)) :=
  if getList nextSpan.numPages pc.freeSpans = q then some (true, nextSpan.next, pc.spans)
  else if getList nextSpan.numPages pc.freeSpans ≠ null then
    (unlinkSpan pc.spans q n (getList nextSpan.numPages pc.freeSpans)).map fun r =>
      (r.1, getList nextSpan.numPages pc.freeSpans, r.2)
  else some (false, null, pc.spans)

theorem PageCache.mergeNext_eq (n : ℕ) (pc : PageCache) (p q nextAddr : Ptr) :
    pc.mergeNext n p q nextAddr = (pc.spans q).bind fun nextSpan =>
      (pc.searchNext n q nextSpan).bind fun r =>
        if r.1 then (r.2.2 p).map fun span =>
          ⟨setList nextSpan.numPages r.2.1 pc.freeSpans, Function.update pc.spanMap nextAddr none,
            Function.update (Function.update r.2.2 p
              (some { span with numPages := span.numPages + nextSpan.numPages })) q none⟩
        else some ⟨setList nextSpan.numPages r.2.1 pc.freeSpans, pc.spanMap, r.2.2⟩ := by
  unfold mergeNext searchNext
  cases hq : pc.spans q with
  | none => rfl
  | some nextSpan =>
    dsimp only [Option.bind_eq_bind, Option.bind_some]
    by_cases hhead : getList nextSpan.numPages pc.freeSpans = q
    · rw [if_pos hhead, if_pos hhead, Option.bind_some]
      dsimp only
      cases pc.spans p with
      | none => rfl
      | some span => rfl
    rw [if_neg hhead, if_neg hhead]
    by_cases hnull : getList nextSpan.numPages pc.freeSpans ≠ null
    · rw [if_pos hnull, if_pos hnull]
      cases unlinkSpan pc.spans q n (getList nextSpan.numPages pc.freeSpans) with
      | none => rfl
      | some r =>
        obtain ⟨found, spans⟩ := r
        cases found with
        | false => rfl
        | true =>
          dsimp only [Option.bind_some, Option.map_some]
          cases spans p with
          | none => rfl
          | some span => rfl
    · rw [if_neg hnull, if_neg hnull]
      rfl

theorem PageCache.deallocateSpan_eq (n : ℕ) (pc : PageCache) (ptr : Ptr) (numPages : ℕ) :
    pc.deallocateSpan n ptr numPages = match pc.spanMap ptr with
      | none => some pc
      | some p =>
        ((pc.spanMap (ptr + numPages * pageSize)).elim (some pc) fun q =>
          pc.mergeNext n p q (ptr + numPages * pageSize)).bind fun pc =>
        (pc.spans p).map fun span =>
          { pc with
            freeSpans := setList span.numPages p pc.freeSpans
            spans := Function.update pc.spans p
              (some { span with next := getList span.numPages pc.freeSpans }) } := by
  unfold deallocateSpan
  cases pc.spanMap ptr with
  | none => rfl
  | some p =>
    dsimp only
    cases pc.spanMap (ptr + numPages * pageSize) with
    | none =>
      dsimp only [Option.bind_eq_bind, Option.bind_some, Option.elim]
      cases pc.spans p with
      | none => rfl
      | some span => rfl
    | some q =>
      dsimp only [Option.bind_eq_bind, Option.elim]
      cases pc.mergeNext n p q (ptr + numPages * pageSize) with
      | none => rfl
      | some pc =>
        dsimp only [Option.bind_some]
        cases pc.spans p with
        | none => rfl
        | some span => rfl

/-- There is a span with this first page and this many pages. -/
def PageCache.Has (pc : PageCache) (x : Ptr × ℕ) : Prop :=
  ∃ p sp, pc.spans p = some sp ∧ sp.pages = x

/-- A span with a new link has the pages it had. -/
theorem PageCache.has_relink {pc : PageCache} {p : Ptr} {sp sp' : Span} (hsp : pc.spans p = some sp)
    (hpages : sp'.pages = sp.pages) {l : List (ℕ × Ptr)} {m : Ptr → Option Ptr} (x : Ptr × ℕ) :
    Has ⟨l, m, Function.update pc.spans p (some sp')⟩ x ↔ pc.Has x := by
  constructor
  · rintro ⟨y, sy, hsy, rfl⟩
    dsimp only at hsy
    by_cases hy : y = p
    · rw [hy, Function.update_self] at hsy
      cases hsy
      exact ⟨p, sp, hsp, hpages.symm⟩
    · rw [Function.update_of_ne hy] at hsy
      exact ⟨y, sy, hsy, rfl⟩
  · rintro ⟨y, sy, hsy, rfl⟩
    by_cases hy : y = p
    · rw [hy, hsp] at hsy
      cases hsy
      exact ⟨p, sp', Function.update_self p _ _, hpages⟩
    · exact ⟨y, sy, (Function.update_of_ne hy _ _).trans hsy, rfl⟩

/-- What a call that gives back the pages `(ptr, numPages)` makes of the spans: a free one behind
them that `spanMap_` leads to has become part of them, or there is none and the spans are those
before. -/
inductive PageCache.Joined (pc pc' : PageCache) (lists : ℕ → List Ptr) (ptr : Ptr)
    (numPages : ℕ) : Prop
  | next {q : Ptr} {sq : Span} (hq : pc.spanMap (ptr + numPages * pageSize) = some q)
      (hsq : pc.spans q = some sq) (hmem : q ∈ lists sq.numPages)
      (hhas : ∀ x, pc'.Has x ↔ x = (ptr, numPages + sq.numPages) ∨
        pc.Has x ∧ x ≠ (ptr, numPages) ∧ x ≠ sq.pages)
  | alone (hno : ∀ q sq, pc.spanMap (ptr + numPages * pageSize) = some q →
      pc.spans q = some sq → q ∉ lists sq.numPages) (hhas : ∀ x, pc'.Has x ↔ pc.Has x)

theorem PageCache.Joined.congr {pc pc' pc₁ : PageCache} {lists : ℕ → List Ptr} {ptr : Ptr}
    {numPages : ℕ} (h : Joined pc pc' lists ptr numPages) (hhas : ∀ x, pc₁.Has x ↔ pc'.Has x) :
    Joined pc pc₁ lists ptr numPages := by
  cases h with
  | next hq hsq hmem h => exact .next hq hsq hmem fun x => (hhas x).trans (h x)
  | alone hno h => exact .alone hno fun x => (hhas x).trans (h x)

namespace PageCache.Tidy

variable {pc pc' : PageCache} {out : List (Ptr × ℕ)} {lists : ℕ → List Ptr} {R : ℕ → Prop}
  {k n : ℕ} {p q node : Ptr} {sp sq : Span}

theorem takeSpan (h : pc.Tidy out lists R) (hhead : getList k pc.freeSpans = p) (hle : n ≤ k)
    (hn : 0 < n) (hnode : pc.spans node = none) (hne : node ≠ null)
    (hr : pc.takeSpan n k p node = some (q, pc')) :
    (∃ sp, pc.spans p = some sp ∧ sp.pageAddr = q) ∧
      ∃ lists', pc'.Tidy ((q, n) :: out) lists' R := by
  obtain ⟨sp, hsp, hr⟩ := Option.bind_eq_some_iff.mp hr
  dsimp only at hr
  have hfree : ∀ k', getList k' (if sp.next ≠ null then setList k sp.next pc.freeSpans
      else pc.freeSpans.filter (·.1 ≠ k)) = if k' = k then sp.next else getList k' pc.freeSpans := by
    intro k'
    by_cases hnext : sp.next = null
    · rw [if_neg (not_not.mpr hnext), getList_filter, hnext]
    · rw [if_pos hnext, getList_setList]
  obtain ⟨rest, hk, htake⟩ := h.take hhead hsp hfree
  by_cases hlt : n < sp.numPages
  · rw [if_pos hlt] at hr
    cases hr
    exact ⟨⟨sp, hsp, rfl⟩, _, htake.split hsp hnode hne hn hlt⟩
  · rw [if_neg hlt] at hr
    cases hr
    have hpages : (sp.pageAddr, n) = sp.pages := by
      rw [Span.pages, le_antisymm (hk ▸ hle) (not_lt.mp hlt)]
    rw [hpages]
    exact ⟨⟨sp, hsp, rfl⟩, _, htake⟩

/-- What the search for the span behind leaves: it is taken off its list, or it is on none and
nothing has happened. -/
theorem search (h : pc.Tidy out lists R) (hsq : pc.spans q = some sq) {found : Bool} {first : Ptr}
    {spans : Ptr → Option Span}
    (hr : pc.searchNext n q sq = some (found, first, spans)) :
    found = true ∧ q ∈ lists sq.numPages ∧ SamePages pc.spans spans ∧
      (∀ k, Path null (links spans) (getList k (setList sq.numPages first pc.freeSpans))
        (Function.update lists sq.numPages ((lists sq.numPages).erase q) k)) ∨
    found = false ∧ spans = pc.spans ∧ q ∉ lists sq.numPages ∧
      ∀ k, getList k (setList sq.numPages first pc.freeSpans) = getList k pc.freeSpans := by
  have hpath := h.linked sq.numPages
  unfold searchNext at hr
  by_cases hhead : getList sq.numPages pc.freeSpans = q
  · rw [if_pos hhead] at hr
    cases hr
    rw [hhead] at hpath
    obtain ⟨rest, r, hlist, hlink, hrest⟩ := hpath.tail (h.ne_null hsq)
    have hr : r = sq.next := by
      rw [links, hsq] at hlink
      exact (Option.some.inj hlink).symm
    refine .inl ⟨rfl, by rw [hlist]; exact List.mem_cons_self, fun _ => rfl, ?_⟩
    intro k
    rw [getList_setList, Function.update_apply, hlist, List.erase_cons_head]
    split_ifs
    · rw [← hr]
      exact hrest
    · exact h.linked k
  rw [if_neg hhead] at hr
  by_cases hnull : getList sq.numPages pc.freeSpans = null
  · rw [if_neg (not_not.mpr hnull)] at hr
    cases hr
    refine .inr ⟨rfl, rfl, ?_, ?_⟩
    · rw [hpath.eq_nil_iff.mpr hnull]
      exact List.not_mem_nil
    · intro k
      have hself := getList_setList_self sq.numPages k pc.freeSpans
      rwa [hnull] at hself
  rw [if_pos hnull] at hr
  obtain ⟨⟨b, spans'⟩, hunlink, hr⟩ := Option.map_eq_some_iff.mp hr
  cases hr
  have hsetself := fun k => getList_setList_self sq.numPages k pc.freeSpans
  obtain ⟨rest, -, hlist, -, -⟩ := hpath.tail hnull
  rw [hlist] at hpath
  obtain ⟨rfl, rfl, hnot⟩ | ⟨rfl, A, r, C, sr, st, hsplit, hsr, hst, rfl⟩ :=
    unlinkSpan_cases hpath hunlink
  · refine .inr ⟨rfl, rfl, ?_, hsetself⟩
    rw [hlist, List.mem_cons, not_or]
    exact ⟨Ne.symm hhead, hnot⟩
  · rw [hsq] at hst
    cases hst
    rw [hsplit] at hpath hlist
    have hr : r ∈ lists sq.numPages := by
      rw [hlist]
      exact List.mem_append_right _ List.mem_cons_self
    have hsame : SamePages pc.spans (Function.update pc.spans r (some { sr with next := sq.next })) :=
      samePages_update hsr rfl
    refine .inl ⟨rfl, by rw [hlist]; simp, hsame, fun k => ?_⟩
    have hlink : some sq.next = links pc.spans q := by
      rw [links, hsq]
      rfl
    dsimp only
    rw [hsetself, links_update, hlink, Function.update_apply]
    split_ifs with hk
    · rw [hk, hlist]
      exact hpath.unlink_erase
    · apply (h.linked k).congr
      intro x hx
      apply Function.update_of_ne
      rintro rfl
      exact hk ((h.numPages_of_mem hx hsr).symm.trans (h.numPages_of_mem hr hsr))

/-- Two spans with the same pages are one. -/
theorem pages_ne (h : pc.Tidy out lists R) (hsp : pc.spans p = some sp) (hsq : pc.spans q = some sq)
    (hpq : p ≠ q) : sp.pages ≠ sq.pages :=
  fun he => hpq (h.eq_of_pageAddr hsp hsq (congrArg Prod.fst he))

/-- The pages of the spans when one has become longer and the one behind it is gone. -/
theorem has_join (h : pc.Tidy out lists R) (hsp : pc.spans p = some sp) (hsq : pc.spans q = some sq)
    (hpq : p ≠ q) {spans' : Ptr → Option Span} (hsame : SamePages pc.spans spans') (sp' : Span)
    {l : List (ℕ × Ptr)} {m : Ptr → Option Ptr} (x : Ptr × ℕ) :
    PageCache.Has ⟨l, m, Function.update (Function.update spans' p (some sp')) q none⟩ x ↔
      x = sp'.pages ∨ pc.Has x ∧ x ≠ sp.pages ∧ x ≠ sq.pages := by
  constructor
  · rintro ⟨y, sy, hsy, rfl⟩
    dsimp only at hsy
    have hyq : y ≠ q := by
      rintro rfl
      rw [Function.update_self] at hsy
      cases hsy
    rw [Function.update_of_ne hyq] at hsy
    by_cases hyp : y = p
    · rw [hyp, Function.update_self] at hsy
      cases hsy
      exact .inl rfl
    · rw [Function.update_of_ne hyp] at hsy
      obtain ⟨sz, hsz, hpages⟩ := hsame.symm.exists_span hsy
      rw [← hpages]
      exact .inr ⟨⟨y, sz, hsz, rfl⟩, h.pages_ne hsz hsp hyp, h.pages_ne hsz hsq hyq⟩
  · rintro (rfl | ⟨⟨y, sy, hsy, rfl⟩, hp, hq⟩)
    · exact ⟨p, sp', (Function.update_of_ne hpq _ _).trans (Function.update_self p _ _), rfl⟩
    · have hyp : y ≠ p := by
        rintro rfl
        rw [hsp] at hsy
        cases hsy
        exact hp rfl
      have hyq : y ≠ q := by
        rintro rfl
        rw [hsq] at hsy
        cases hsy
        exact hq rfl
      obtain ⟨sz, hsz, hpages⟩ := hsame.exists_span hsy
      refine ⟨y, sz, ?_, hpages⟩
      dsimp only
      rw [Function.update_of_ne hyq, Function.update_of_ne hyp, hsz]

theorem mergeNext (h : pc.Tidy (sp.pages :: out) lists R) (hsp : pc.spans p = some sp)
    (hq : pc.spanMap (sp.pageAddr + sp.numPages * pageSize) = some q)
    (hr : pc.mergeNext n p q (sp.pageAddr + sp.numPages * pageSize) = some pc') :
    ∃ lists' sp', pc'.spans p = some sp' ∧ pc'.Tidy (sp'.pages :: out) lists' R ∧
      Joined pc pc' lists sp.pageAddr sp.numPages := by
  obtain ⟨sq, hsq, hnext⟩ := h.mapped _ q hq
  rw [mergeNext_eq, hsq, Option.bind_some] at hr
  obtain ⟨⟨found, first, spans⟩, hsearch, hr⟩ := Option.bind_eq_some_iff.mp hr
  dsimp only at hr
  obtain ⟨rfl, hmem, hsame, hlinked⟩ | ⟨rfl, rfl, hnot, hfree⟩ := h.search hsq hsearch
  · rw [if_pos rfl] at hr
    obtain ⟨sp', hsp', rfl⟩ := Option.map_eq_some_iff.mp hr
    have hpages := hsame.pages_eq hsp hsp'
    have hjoin := h.join hsp hsq hmem hnext hsame hlinked hsp'
    have hpq : p ≠ q := by
      rintro rfl
      exact (h.user List.mem_cons_self hsp).2 _ hmem
    have hnew : ({ sp' with numPages := sp'.numPages + sq.numPages } : Span).pages =
        (sp.pageAddr, sp.numPages + sq.numPages) := by
      rw [← show sp'.pageAddr = sp.pageAddr from congrArg Prod.fst hpages,
        ← show sp'.numPages = sp.numPages from congrArg Prod.snd hpages]
      rfl
    refine ⟨Function.update lists sq.numPages ((lists sq.numPages).erase q),
      { sp' with numPages := sp'.numPages + sq.numPages }, ?_, ?_, ?_⟩
    · dsimp only
      rw [Function.update_of_ne hpq, Function.update_self]
    · rw [hnew, ← hnext]
      exact hjoin
    · refine .next hq hsq hmem ?_
      intro x
      rw [← hnew]
      exact h.has_join hsp hsq hpq hsame _ x
  · rw [if_neg Bool.false_ne_true] at hr
    cases hr
    refine ⟨lists, sp, hsp, h.relist hfree, .alone ?_ fun x => Iff.rfl⟩
    intro q' sq' hq' hsq'
    rw [hq] at hq'
    cases hq'
    rw [hsq] at hsq'
    cases hsq'
    exact hnot

theorem deallocateSpan {ptr : Ptr} {numPages : ℕ} (h : pc.Tidy ((ptr, numPages) :: out) lists R)
    (hr : pc.deallocateSpan n ptr numPages = some pc') :
    ∃ lists', pc'.Tidy out lists' R ∧ Joined pc pc' lists ptr numPages := by
  obtain ⟨p, sp, hmap, hsp, hpages, -⟩ := h.users _ List.mem_cons_self
  obtain rfl : sp.pageAddr = ptr := congrArg Prod.fst hpages
  obtain rfl : sp.numPages = numPages := congrArg Prod.snd hpages
  rw [deallocateSpan_eq, hmap] at hr
  obtain ⟨pc₁, hmerge, hr⟩ := Option.bind_eq_some_iff.mp hr
  obtain ⟨sp₁, hsp₁, rfl⟩ := Option.map_eq_some_iff.mp hr
  have hmerged : ∃ lists₁ sp', pc₁.spans p = some sp' ∧ pc₁.Tidy (sp'.pages :: out) lists₁ R ∧
      Joined pc pc₁ lists sp.pageAddr sp.numPages := by
    cases hq : pc.spanMap (sp.pageAddr + sp.numPages * pageSize) with
    | none =>
      rw [hq] at hmerge
      cases hmerge
      refine ⟨lists, sp, hsp, h, .alone ?_ fun x => Iff.rfl⟩
      intro q sq hq'
      rw [hq] at hq'
      cases hq'
    | some q =>
      rw [hq] at hmerge
      exact h.mergeNext hsp hq hmerge
  obtain ⟨lists₁, sp', hsp', h₁, hjoined⟩ := hmerged
  rw [hsp₁] at hsp'
  cases hsp'
  exact ⟨_, h₁.put hsp₁, hjoined.congr (has_relink hsp₁ (by rfl))⟩

end PageCache.Tidy

/-- A run of the page cache. `out` has the spans that are handed out with their pages, `obtained`
the blocks that `systemAlloc` had from the system; no branch of the source reads them. -/
structure PageRun where
  pc : PageCache
  mem : ℕ → UInt8
  out : List (Ptr × ℕ)
  obtained : List Block

/-- A call with what `new Span` and `mmap` return, or with a bound on the rounds of its loop. -/
inductive PageCall
  | allocate (numPages : ℕ) (node map : Ptr)
  | deallocate (ptr : Ptr) (numPages rounds : ℕ)

/-- What the callers and the system keep to: a page or more is asked for, a new object was not in
use, a new mapping has nothing in common with those before it, and what is given back was handed
out with that many pages. -/
def PageCall.Valid (s : PageRun) : PageCall → Prop
  | allocate numPages node map => 0 < numPages ∧ node ≠ null ∧ s.pc.spans node = none ∧
    (map ≠ null → ∀ b ∈ s.obtained, Apart ⟨map, systemSize numPages⟩ b)
  | deallocate ptr numPages _ => (ptr, numPages) ∈ s.out

instance PageCall.decidableValid (s : PageRun) : DecidablePred (PageCall.Valid s)
  | .allocate numPages node map =>
    decidable_of_iff (0 < numPages ∧ node ≠ null ∧ (s.pc.spans node).isNone = true ∧
      (map ≠ null → ∀ b ∈ s.obtained, Apart ⟨map, systemSize numPages⟩ b))
      (by rw [Option.isNone_iff_eq_none]; rfl)
  | .deallocate ptr numPages _ => inferInstanceAs (Decidable ((ptr, numPages) ∈ s.out))

/-- The pages that are asked for can be counted in bytes. -/
def PageCall.Fits : PageCall → Prop
  | allocate numPages _ _ => numPages * pageSize < 2 ^ 64
  | deallocate _ _ _ => True

def PageRun.start (mem : ℕ → UInt8) : PageRun :=
  ⟨⟨[], fun _ => none, fun _ => none⟩, mem, [], []⟩

def pageStep (s : PageRun) (c : PageCall) : Option (Ptr × PageRun) :=
  if c.Valid s then
    match c with
    | .allocate numPages node map =>
      (s.pc.allocateSpan s.mem numPages node map).map fun r =>
        (r.1, ⟨r.2.1, r.2.2, if r.1 = null then s.out else (r.1, numPages) :: s.out,
          if (s.pc.freeSpans.find? (numPages ≤ ·.1)).isNone ∧ map ≠ null then
            ⟨map, systemSize numPages⟩ :: s.obtained
          else s.obtained⟩)
    | .deallocate ptr numPages rounds =>
      (s.pc.deallocateSpan rounds ptr numPages).map fun pc =>
        (null, { s with pc := pc, out := s.out.erase (ptr, numPages) })
  else none

/-- The span stands on the free list of this key. -/
def PageRun.Listed (s : PageRun) (k : ℕ) (p : Ptr) : Prop :=
  ∃ qs, Path null (links s.pc.spans) (getList k s.pc.freeSpans) qs ∧ p ∈ qs

/-- The bytes that a user has with a span. -/
def userBlock (o : Ptr × ℕ) : Block := ⟨o.1, o.2 * pageSize⟩

/-- The spans that are handed out and those on the free lists lie apart and have all the pages that
were obtained, and a listed span has the number of pages of its list. -/
structure PageRun.Conserved (s : PageRun) : Prop where
  ends : ∀ k, ∃ qs, Path null (links s.pc.spans) (getList k s.pc.freeSpans) qs
  listed : ∀ k p, s.Listed k p → ∃ sp, s.pc.spans p = some sp ∧ sp.numPages = k
  usersApart : s.out.Pairwise fun o o' => Apart (userBlock o) (userBlock o')
  listedApart : ∀ k p sp k' q sq, s.Listed k p → s.pc.spans p = some sp → s.Listed k' q →
    s.pc.spans q = some sq → (k, p) ≠ (k', q) → Apart sp.block sq.block
  apart : ∀ o ∈ s.out, ∀ k p sp, s.Listed k p → s.pc.spans p = some sp →
    Apart (userBlock o) sp.block
  cover : ∀ x, (∃ b ∈ s.obtained, b.Has x) ↔ (∃ o ∈ s.out, (userBlock o).Has x) ∨
    ∃ k p sp, s.Listed k p ∧ s.pc.spans p = some sp ∧ sp.block.Has x

/-- The invariant of a run. -/
structure PageRun.Tidy (s : PageRun) : Prop where
  cache : ∃ lists, s.pc.Tidy s.out lists fun x => ∃ b ∈ s.obtained, b.Has x
  mapped : ∀ b ∈ s.obtained, b.ptr ≠ null

theorem PageRun.Tidy.start (mem : ℕ → UInt8) : (PageRun.start mem).Tidy := by
  refine ⟨⟨fun _ => [], ?_⟩, fun b hb => nomatch hb⟩
  have hregion : (fun x => ∃ b ∈ (PageRun.start mem).obtained, b.Has x) = fun _ => False := by
    funext x
    simp [PageRun.start]
  rw [hregion]
  exact PageCache.Tidy.start

theorem PageCache.Tidy.listed_iff {s : PageRun} {out : List (Ptr × ℕ)} {lists : ℕ → List Ptr}
    {R : ℕ → Prop} (h : s.pc.Tidy out lists R) (k : ℕ) (p : Ptr) :
    s.Listed k p ↔ p ∈ lists k := by
  constructor
  · rintro ⟨qs, hqs, hp⟩
    rwa [(h.linked k).unique hqs]
  · exact fun hp => ⟨lists k, h.linked k, hp⟩

theorem PageRun.Tidy.conserved {s : PageRun} (h : s.Tidy) : s.Conserved := by
  obtain ⟨⟨lists, h⟩, -⟩ := h
  have hlisted := h.listed_iff
  constructor
  · exact fun k => ⟨lists k, h.linked k⟩
  · exact fun k p hp => h.key k p ((hlisted k p).mp hp)
  · apply h.nodup.imp_of_mem
    intro o o' ho ho' hne
    obtain ⟨p, sp, -, hsp, rfl, -⟩ := h.users o ho
    obtain ⟨q, sq, -, hsq, rfl, -⟩ := h.users o' ho'
    apply h.tiles.apart p q _ _ (blocks_eq_some.mpr ⟨sp, hsp, rfl⟩)
      (blocks_eq_some.mpr ⟨sq, hsq, rfl⟩)
    rintro rfl
    rw [hsp] at hsq
    cases hsq
    exact hne rfl
  · intro k p sp k' q sq hp hsp hq hsq hne
    apply h.tiles.apart p q _ _ (blocks_eq_some.mpr ⟨sp, hsp, rfl⟩)
      (blocks_eq_some.mpr ⟨sq, hsq, rfl⟩)
    rintro rfl
    have hk := h.numPages_of_mem ((hlisted k p).mp hp) hsp
    have hk' := h.numPages_of_mem ((hlisted k' p).mp hq) hsp
    exact hne (by rw [← hk, ← hk'])
  · intro o ho k q sq hq hsq
    obtain ⟨p, sp, -, hsp, rfl, hnot⟩ := h.users o ho
    apply h.tiles.apart p q _ _ (blocks_eq_some.mpr ⟨sp, hsp, rfl⟩)
      (blocks_eq_some.mpr ⟨sq, hsq, rfl⟩)
    rintro rfl
    exact hnot k ((hlisted k p).mp hq)
  · intro x
    rw [h.tiles.cover]
    constructor
    · rintro ⟨p, b, hb, hx⟩
      obtain ⟨sp, hsp, rfl⟩ := blocks_eq_some.mp hb
      obtain hp | ho := h.placed p sp hsp
      · exact .inr ⟨sp.numPages, p, sp, (hlisted _ p).mpr hp, hsp, hx⟩
      · exact .inl ⟨sp.pages, ho, hx⟩
    · rintro (⟨o, ho, hx⟩ | ⟨k, p, sp, -, hsp, hx⟩)
      · obtain ⟨p, sp, -, hsp, rfl, -⟩ := h.users o ho
        exact ⟨p, sp.block, blocks_eq_some.mpr ⟨sp, hsp, rfl⟩, hx⟩
      · exact ⟨p, sp.block, blocks_eq_some.mpr ⟨sp, hsp, rfl⟩, hx⟩

section Steps

variable {s s' : PageRun} {c : PageCall} {q : Ptr} {numPages node map : ℕ}

theorem pageStep_valid {r : Ptr × PageRun} (h : pageStep s c = some r) : c.Valid s := by
  by_contra hno
  unfold pageStep at h
  rw [if_neg hno] at h
  cases h

/-- Every page that was obtained lies behind the null pointer. -/
theorem PageRun.Tidy.pageAddr_ne {p : Ptr} {sp : Span} (h : s.Tidy) (hsp : s.pc.spans p = some sp) :
    sp.pageAddr ≠ null := by
  obtain ⟨⟨lists, ht⟩, hmapped⟩ := h
  have hblock := blocks_eq_some.mpr ⟨sp, hsp, rfl⟩
  have hfirst : sp.block.Has sp.pageAddr :=
    ⟨le_rfl, Nat.lt_add_of_pos_right (Nat.mul_pos (ht.pos hsp) (by decide))⟩
  obtain ⟨b, hb, hle, -⟩ := (ht.tiles.cover _).mpr ⟨p, _, hblock, hfirst⟩
  exact (Nat.lt_of_lt_of_le (Nat.pos_of_ne_zero (hmapped b hb)) hle).ne'

theorem PageRun.Tidy.allocate (h : s.Tidy) (hfit : numPages * pageSize < 2 ^ 64)
    (hr : pageStep s (.allocate numPages node map) = some (q, s')) : s'.Tidy := by
  obtain ⟨⟨lists, ht⟩, hmapped⟩ := id h
  have hvalid := pageStep_valid hr
  rw [pageStep, if_pos hvalid] at hr
  obtain ⟨hn, hnode, hfresh, hmap⟩ := hvalid
  obtain ⟨⟨x, pc, mem⟩, halloc, hr⟩ := Option.map_eq_some_iff.mp hr
  cases hr
  rw [allocateSpan] at halloc
  cases hfind : s.pc.freeSpans.find? (numPages ≤ ·.1) with
  | some e =>
    obtain ⟨k, p⟩ := e
    rw [hfind] at halloc
    obtain ⟨⟨y, pc₁⟩, htake, halloc⟩ := Option.bind_eq_some_iff.mp halloc
    cases halloc
    obtain ⟨hhead, hle⟩ := getList_of_find hfind
    obtain ⟨⟨sp, hsp, rfl⟩, lists', h'⟩ := ht.takeSpan hhead hle hn hfresh hnode htake
    dsimp only [Option.isNone]
    rw [if_neg (h.pageAddr_ne hsp), if_neg (fun hno => Bool.false_ne_true hno.1)]
    exact ⟨⟨lists', h'⟩, hmapped⟩
  | none =>
    rw [hfind] at halloc
    dsimp only at halloc
    by_cases hnull : map = null
    · rw [if_pos hnull] at halloc
      cases halloc
      rw [if_pos rfl, if_neg (fun hno => hno.2 hnull)]
      exact ⟨⟨lists, ht⟩, hmapped⟩
    · rw [if_neg hnull] at halloc
      cases halloc
      have hsize : systemSize numPages = numPages * pageSize := Nat.mod_eq_of_lt hfit
      rw [if_neg hnull, if_pos ⟨rfl, hnull⟩]
      have hout : ∀ x, (⟨map, numPages * pageSize⟩ : Block).Has x → ¬ ∃ b ∈ s.obtained, b.Has x := by
        rintro x hx ⟨b, hb, hbx⟩
        have hapart := hmap hnull b hb
        rw [hsize] at hapart
        exact hapart.not_has hx hbx
      have h' := ht.obtainPages hfresh hnode hn hout
      have hregion : (fun x => (∃ b ∈ s.obtained, b.Has x) ∨
          (⟨map, numPages * pageSize⟩ : Block).Has x) =
            fun x => ∃ b ∈ (⟨map, systemSize numPages⟩ : Block) :: s.obtained, b.Has x := by
        funext x
        rw [hsize]
        simp [or_comm]
      rw [hregion] at h'
      refine ⟨⟨lists, h'⟩, ?_⟩
      intro b hb
      obtain rfl | hb := List.mem_cons.mp hb
      · exact hnull
      · exact hmapped b hb

theorem PageRun.Tidy.deallocate {ptr : Ptr} {rounds : ℕ} (h : s.Tidy)
    (hr : pageStep s (.deallocate ptr numPages rounds) = some (q, s')) : s'.Tidy := by
  obtain ⟨⟨lists, ht⟩, hmapped⟩ := h
  have hvalid := pageStep_valid hr
  rw [pageStep, if_pos hvalid] at hr
  obtain ⟨pc, hpc, hr⟩ := Option.map_eq_some_iff.mp hr
  cases hr
  have hperm : ((ptr, numPages) :: s.out.erase (ptr, numPages)).Perm s.out :=
    (List.perm_cons_erase hvalid).symm
  obtain ⟨lists', ht', -⟩ := (ht.perm hperm).deallocateSpan hpc
  exact ⟨⟨lists', ht'⟩, hmapped⟩

theorem PageRun.Tidy.step (h : s.Tidy) (hfit : c.Fits) (hr : pageStep s c = some (q, s')) :
    s'.Tidy := by
  cases c with
  | allocate numPages node map => exact h.allocate hfit hr
  | deallocate ptr numPages rounds => exact h.deallocate hr

/-- What an allocation returns is a span of just these pages. -/
theorem PageRun.Tidy.returned (h : s'.Tidy)
    (hr : pageStep s (.allocate numPages node map) = some (q, s')) (hq : q ≠ null) :
    ∃ p sp, s'.pc.spanMap q = some p ∧ s'.pc.spans p = some sp ∧ sp.pages = (q, numPages) := by
  obtain ⟨⟨lists, ht⟩, -⟩ := h
  have hmem : (q, numPages) ∈ s'.out := by
    rw [pageStep, if_pos (pageStep_valid hr)] at hr
    obtain ⟨x, -, hr⟩ := Option.map_eq_some_iff.mp hr
    cases hr
    dsimp only
    rw [if_neg hq]
    exact List.mem_cons_self
  obtain ⟨p, sp, hp, hsp, hpages, -⟩ := ht.users _ hmem
  exact ⟨p, sp, hp, hsp, hpages⟩

end Steps

/-- In every run whose requests can be counted in bytes no page is lost or handed out twice, and
every allocation returns the pages it was asked for. -/
theorem pageCache_conserves (mem : ℕ → UInt8) (calls : List PageCall)
    (hfits : ∀ c ∈ calls, c.Fits) (s : PageRun)
    (hrun : finish pageStep (PageRun.start mem) calls = some s) :
    s.Conserved ∧ ∀ numPages node map q s', numPages * pageSize < 2 ^ 64 →
      pageStep s (.allocate numPages node map) = some (q, s') → q ≠ null →
      ∃ p sp, s'.pc.spanMap q = some p ∧ s'.pc.spans p = some sp ∧ sp.pages = (q, numPages) := by
  have hall : Allowed pageStep (fun _ c => c.Fits) (PageRun.start mem) calls :=
    .of_forall fun c hc _ => hfits c hc
  have htidy : s.Tidy := hall.finish (fun s c r s' h hc hr => h.step hc hr) (.start mem) hrun
  refine ⟨htidy.conserved, ?_⟩
  intro numPages node map q s' hfit hr hq
  exact (htidy.allocate hfit hr).returned hr hq

/-- Two pages of which the first is given back and handed out again. -/
theorem pageCache_conserves_split : ∃ s,
    finish pageStep (PageRun.start fun _ => 0)
      [.allocate 2 1 4096, .deallocate 4096 2 0, .allocate 1 2 0] = some s ∧ s.Conserved := by
  refine ⟨_, rfl, (pageCache_conserves (fun _ => 0)
    [.allocate 2 1 4096, .deallocate 4096 2 0, .allocate 1 2 0] ?_ _ rfl).1⟩
  intro c hc
  simp only [List.mem_cons, List.not_mem_nil, or_false] at hc
  obtain rfl | rfl | rfl := hc
  · exact (by decide : 2 * pageSize < 2 ^ 64)
  · trivial
  · exact (by decide : 1 * pageSize < 2 ^ 64)

/-- A request for `2 ^ 52 + 1` pages obtains one page, for its bytes are counted in 64 bits. -/
theorem pageCache_hands_out_more : ∃ s,
    finish pageStep (PageRun.start fun _ => 0) [.allocate (2 ^ 52 + 1) 1 4096] = some s ∧
      ¬ s.Conserved := by
  refine ⟨_, rfl, ?_⟩
  intro h
  have hcover := (h.cover 8192).mpr (.inl ⟨(4096, 2 ^ 52 + 1), List.mem_cons_self,
    by decide, by decide⟩)
  obtain ⟨b, hb, hx⟩ := hcover
  obtain rfl := List.mem_singleton.mp hb
  revert hx
  exact not_and_of_not_right _ (by decide)

end Cache
end KvStore
