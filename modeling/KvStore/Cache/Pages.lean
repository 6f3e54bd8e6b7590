import KvStore.Cache.Page
import KvStore.Lib.Guarded
import KvStore.Lib.Linked
import KvStore.Lib.Tiling

/-! The page cache over any sequence of allocations and deallocations: what is handed out and what
stands on the free lists tiles the pages that came from the system. The state of a run has beside
the cache the spans that are handed out and the blocks that `systemAlloc` obtained. -/
namespace KvStore
open Memory Linked

namespace Cache
open PageCache

/-- The bytes of a span. -/
def Span.block (s : Span) : Block := ⟨s.pageAddr, s.numPages * pageSize⟩

/-- Where a span starts, and how many pages it has. -/
def Span.pages (s : Span) : Ptr × ℕ := (s.pageAddr, s.numPages)

def blocks (spans : Ptr → Option Span) (p : Ptr) : Option Block := (spans p).map Span.block

def links (spans : Ptr → Option Span) (p : Ptr) : Option Ptr := (spans p).map Span.next

section Lists

variable {k k' numPages : ℕ} {p : Ptr} {l : List (ℕ × Ptr)}

theorem getList_cons (e : ℕ × Ptr) (l : List (ℕ × Ptr)) :
    getList k (e :: l) = if k = e.1 then e.2 else getList k l := by
  rw [getList, List.lookup_cons]
  by_cases h : k = e.1
  · simp [h]
  · simp [h, beq_eq_false_iff_ne.mpr h, getList]

theorem getList_setList (k k' : ℕ) (p : Ptr) (l : List (ℕ × Ptr)) :
    getList k' (setList k p l) = if k' = k then p else getList k' l := by
  induction l with
  | nil => exact getList_cons (k, p) []
  | cons e l ih =>
    rw [setList]
    by_cases hlt : k < e.1
    · rw [if_pos hlt]
      exact getList_cons (k, p) (e :: l)
    rw [if_neg hlt, getList_cons]
    by_cases heq : k = e.1
    · rw [if_pos heq, getList_cons, heq]
      by_cases hk : k' = e.1
      · rw [if_pos hk, if_pos hk]
      · rw [if_neg hk, if_neg hk, if_neg hk]
    · rw [if_neg heq, getList_cons, ih]
      by_cases hk : k' = e.1
      · rw [if_pos hk, if_pos hk, if_neg]
        rintro rfl
        exact heq hk
      · rw [if_neg hk, if_neg hk]

theorem getList_setList_self (k k' : ℕ) (l : List (ℕ × Ptr)) :
    getList k' (setList k (getList k l) l) = getList k' l := by
  rw [getList_setList]
  split_ifs with hk
  · rw [hk]
  · rfl

theorem getList_filter (k k' : ℕ) (l : List (ℕ × Ptr)) :
    getList k' (l.filter (·.1 ≠ k)) = if k' = k then null else getList k' l := by
  induction l with
  | nil =>
    rw [List.filter_nil]
    split_ifs
    · rfl
    · rfl
  | cons e l ih =>
    by_cases he : e.1 = k
    · rw [List.filter_cons, if_neg (by simpa using he), ih, getList_cons, he]
      split_ifs
      · rfl
      · rfl
    · rw [List.filter_cons, if_pos (by simpa using he), getList_cons, ih, getList_cons]
      split_ifs with h₁ h₂
      · exact absurd (h₁.symm.trans h₂) he
      · rfl
      · rfl
      · rfl

/-- The list that `lower_bound` finds. -/
theorem getList_of_find (h : l.find? (numPages ≤ ·.1) = some (k, p)) :
    getList k l = p ∧ numPages ≤ k := by
  induction l with
  | nil => cases h
  | cons e l ih =>
    rw [getList_cons]
    by_cases he : numPages ≤ e.1
    · rw [List.find?_cons_of_pos (by simpa using he)] at h
      cases h
      exact ⟨if_pos rfl, he⟩
    · rw [List.find?_cons_of_neg (by simpa using he)] at h
      obtain ⟨hget, hle⟩ := ih h
      refine ⟨?_, hle⟩
      rw [if_neg, hget]
      rintro rfl
      exact he hle

end Lists

section Spans

variable {spans spans' : Ptr → Option Span} {p q : Ptr} {sp : Span} {b : Block}

theorem blocks_update (spans : Ptr → Option Span) (p : Ptr) (sp : Span) :
    blocks (Function.update spans p (some sp)) =
      Function.update (blocks spans) p (some sp.block) := by
  funext q
  by_cases h : q = p
  · subst h
    simp [blocks]
  · simp [blocks, h]

theorem blocks_delete (spans : Ptr → Option Span) (p : Ptr) :
    blocks (Function.update spans p none) = Function.update (blocks spans) p none := by
  funext q
  by_cases h : q = p
  · subst h
    simp [blocks]
  · simp [blocks, h]

theorem links_update (spans : Ptr → Option Span) (p : Ptr) (sp : Span) :
    links (Function.update spans p (some sp)) = Function.update (links spans) p (some sp.next) := by
  funext q
  by_cases h : q = p
  · subst h
    simp [links]
  · simp [links, h]

theorem blocks_eq_some : blocks spans p = some b ↔ ∃ sp, spans p = some sp ∧ sp.block = b := by
  rw [blocks, Option.map_eq_some_iff]

theorem ne_of_none (hsp : spans p = some sp) (hq : spans q = none) : p ≠ q := by
  rintro rfl
  rw [hq] at hsp
  cases hsp

/-- Only links differ. -/
def SamePages (spans spans' : Ptr → Option Span) : Prop :=
  ∀ p, (spans' p).map Span.pages = (spans p).map Span.pages

theorem samePages_update {sp' : Span} (hsp : spans p = some sp) (h : sp'.pages = sp.pages) :
    SamePages spans (Function.update spans p (some sp')) := by
  intro x
  by_cases hx : x = p
  · subst hx
    rw [Function.update_self, hsp, Option.map_some, Option.map_some, h]
  · rw [Function.update_of_ne hx]

theorem SamePages.blocks_eq (h : SamePages spans spans') : blocks spans' = blocks spans := by
  have hpages : ∀ spans : Ptr → Option Span, blocks spans = fun p =>
      ((spans p).map Span.pages).map fun x => (⟨x.1, x.2 * pageSize⟩ : Block) := by
    intro spans
    funext p
    rw [blocks, Option.map_map]
    rfl
  rw [hpages, hpages]
  funext p
  rw [h p]

theorem SamePages.refl (spans : Ptr → Option Span) : SamePages spans spans := fun _ => rfl

theorem SamePages.symm (h : SamePages spans spans') : SamePages spans' spans := fun x => (h x).symm

theorem SamePages.exists_span (h : SamePages spans spans') (hsp : spans p = some sp) :
    ∃ sp', spans' p = some sp' ∧ sp'.pages = sp.pages := by
  have hp := h p
  rw [hsp] at hp
  exact Option.map_eq_some_iff.mp hp

theorem SamePages.pages_eq (h : SamePages spans spans') {sp' : Span} (hsp : spans p = some sp)
    (hsp' : spans' p = some sp') : sp'.pages = sp.pages := by
  have hp := h p
  rw [hsp, hsp'] at hp
  exact Option.some.inj hp

/-- The loop over a list that starts at `prev`: the span is not behind it, or it is taken off. -/
theorem unlinkSpan_cases {target prev : Ptr} {qs : List Ptr} {n : ℕ} {b : Bool}
    (h : Path null (links spans) prev (prev :: qs))
    (hr : unlinkSpan spans target n prev = some (b, spans')) :
    (b = false ∧ spans' = spans ∧ target ∉ qs) ∨
    b = true ∧ ∃ A r C sr st, prev :: qs = A ++ r :: target :: C ∧ spans r = some sr ∧
      spans target = some st ∧ spans' = Function.update spans r (some { sr with next := st.next }) := by
  induction n generalizing prev qs with
  | zero => cases hr
  | succ n ih =>
    obtain ⟨-, hprev, r, hlink, hqs⟩ := h
    obtain ⟨q, hq, hr⟩ := Option.bind_eq_some_iff.mp hr
    have hnext : q.next = r := by
      rw [links, hq] at hlink
      exact Option.some.inj hlink
    rw [hnext] at hr
    by_cases hend : r = null
    · rw [if_pos hend] at hr
      cases hr
      refine .inl ⟨rfl, rfl, ?_⟩
      rw [hqs.eq_nil_iff.mpr hend]
      exact List.not_mem_nil
    rw [if_neg hend] at hr
    obtain ⟨rest, -, rfl, -, -⟩ := hqs.tail hend
    by_cases htarget : r = target
    · rw [if_pos htarget] at hr
      obtain ⟨t, ht, hr⟩ := Option.bind_eq_some_iff.mp hr
      cases hr
      exact .inr ⟨rfl, [], prev, rest, q, t, by rw [htarget]; rfl, hq, ht, rfl⟩
    · rw [if_neg htarget] at hr
      obtain ⟨rfl, rfl, hnot⟩ | ⟨rfl, A, x, C, sr, st, hsplit, hsr, hst, rfl⟩ := ih hqs hr
      · refine .inl ⟨rfl, rfl, ?_⟩
        rw [List.mem_cons, not_or]
        exact ⟨Ne.symm htarget, hnot⟩
      · exact .inr ⟨rfl, prev :: A, x, C, sr, st, by rw [hsplit]; rfl, hsr, hst, rfl⟩

end Spans

/-- `lists` has the spans of each free list, `out` the spans that are handed out. Together they tile
the region, and `spanMap_` leads to a span from its first page. -/
structure PageCache.Tidy (pc : PageCache) (out : List (Ptr × ℕ)) (lists : ℕ → List Ptr)
    (R : ℕ → Prop) : Prop where
  noNull : pc.spans null = none
  tiles : Tiles (blocks pc.spans) R
  linked : ∀ k, Path null (links pc.spans) (getList k pc.freeSpans) (lists k)
  key : ∀ k, ∀ p ∈ lists k, ∃ sp, pc.spans p = some sp ∧ sp.numPages = k
  users : ∀ o ∈ out, ∃ p sp, pc.spanMap o.1 = some p ∧ pc.spans p = some sp ∧ sp.pages = o ∧
    ∀ k, p ∉ lists k
  placed : ∀ p sp, pc.spans p = some sp → p ∈ lists sp.numPages ∨ sp.pages ∈ out
  mapped : ∀ a p, pc.spanMap a = some p → ∃ sp, pc.spans p = some sp ∧ sp.pageAddr = a
  nodup : out.Nodup

namespace PageCache.Tidy

variable {pc : PageCache} {out : List (Ptr × ℕ)} {lists : ℕ → List Ptr} {R : ℕ → Prop}
  {k n m : ℕ} {p q node : Ptr} {sp sq : Span} {free' : List (ℕ × Ptr)}

theorem start : Tidy ⟨[], fun _ => none, fun _ => none⟩ [] (fun _ => []) fun _ => False where
  noNull := rfl
  tiles := .empty
  linked := fun _ => rfl
  key := fun _ _ h => nomatch h
  users := fun _ h => nomatch h
  placed := fun _ _ h => nomatch h
  mapped := fun _ _ h => nomatch h
  nodup := List.nodup_nil

theorem pos (h : pc.Tidy out lists R) (hsp : pc.spans p = some sp) : 0 < sp.numPages := by
  have hbytes := h.tiles.pos p sp.block (blocks_eq_some.mpr ⟨sp, hsp, rfl⟩)
  exact Nat.pos_of_mul_pos_right hbytes

/-- A span is known by its first page. -/
theorem eq_of_pageAddr (h : pc.Tidy out lists R) (hsp : pc.spans p = some sp)
    (hsq : pc.spans q = some sq) (haddr : sp.pageAddr = sq.pageAddr) : p = q := by
  by_contra hpq
  have hp := blocks_eq_some.mpr ⟨sp, hsp, rfl⟩
  have hq := blocks_eq_some.mpr ⟨sq, hsq, rfl⟩
  exact (h.tiles.apart p q _ _ hp hq hpq).ptr_ne (h.tiles.pos p _ hp) (h.tiles.pos q _ hq) haddr

theorem ne_null (h : pc.Tidy out lists R) (hsp : pc.spans p = some sp) : p ≠ null := by
  rintro rfl
  rw [h.noNull] at hsp
  cases hsp

/-- A listed span stands on one list only. -/
theorem numPages_of_mem (h : pc.Tidy out lists R) (hp : p ∈ lists k) (hsp : pc.spans p = some sp) :
    sp.numPages = k := by
  obtain ⟨sp', hsp', hk⟩ := h.key k p hp
  rw [hsp] at hsp'
  cases hsp'
  exact hk

/-- A span is on the list of its size only. -/
theorem mem_erased (h : pc.Tidy out lists R) (hsq : pc.spans q = some sq) {x : Ptr} :
    x ∈ Function.update lists sq.numPages ((lists sq.numPages).erase q) k ↔ x ∈ lists k ∧ x ≠ q := by
  rw [Function.update_apply]
  split_ifs with hk
  · rw [hk, (h.linked sq.numPages).nodup.mem_erase_iff]
    exact and_comm
  · refine (and_iff_left_of_imp ?_).symm
    rintro hx rfl
    exact hk (h.numPages_of_mem hx hsq).symm

theorem mem_pushed {x : Ptr} :
    x ∈ Function.update lists n (p :: lists n) k ↔ k = n ∧ x = p ∨ x ∈ lists k := by
  rw [Function.update_apply]
  split_ifs with hk
  · rw [hk, List.mem_cons, and_iff_right rfl]
  · exact (or_iff_right fun hx => hk hx.1).symm

/-- No other span starts within a span. -/
theorem pageAddr_ne (h : pc.Tidy out lists R) (hsp : pc.spans p = some sp)
    (hsq : pc.spans q = some sq) (hqp : q ≠ p) {a : ℕ} (ha : sp.block.Has a) : sq.pageAddr ≠ a := by
  rintro rfl
  have hblock := blocks_eq_some.mpr ⟨sq, hsq, rfl⟩
  have hapart := h.tiles.apart q p _ _ hblock (blocks_eq_some.mpr ⟨sp, hsp, rfl⟩) hqp
  refine hapart.not_has ⟨Nat.le_refl _, ?_⟩ ha
  exact Nat.lt_add_of_pos_right (h.tiles.pos q _ hblock)

/-- A span is taken off its list and handed out. -/
theorem unlist (h : pc.Tidy out lists R) (hsq : pc.spans q = some sq) (hq : q ∈ lists sq.numPages)
    {spans' : Ptr → Option Span} (hsame : SamePages pc.spans spans')
    (hlinked : ∀ k, Path null (links spans') (getList k free')
      (Function.update lists sq.numPages ((lists sq.numPages).erase q) k)) :
    Tidy ⟨free', Function.update pc.spanMap sq.pageAddr (some q), spans'⟩ (sq.pages :: out)
      (Function.update lists sq.numPages ((lists sq.numPages).erase q)) R := by
  have hout : ∀ o ∈ out, ∃ x sx, pc.spanMap o.1 = some x ∧ pc.spans x = some sx ∧ sx.pages = o ∧
      (∀ k, x ∉ lists k) ∧ x ≠ q := by
    intro o ho
    obtain ⟨x, sx, hx, hsx, hpages, hnot⟩ := h.users o ho
    refine ⟨x, sx, hx, hsx, hpages, hnot, ?_⟩
    rintro rfl
    exact hnot _ hq
  refine ⟨?_, ?_, hlinked, ?_, ?_, ?_, ?_, ?_⟩
  · have hnull := hsame null
    rw [h.noNull] at hnull
    exact Option.map_eq_none_iff.mp hnull
  · dsimp only
    rw [hsame.blocks_eq]
    exact h.tiles
  · intro k x hx
    obtain ⟨sx, hsx, hk⟩ := h.key k x ((h.mem_erased hsq).mp hx).1
    obtain ⟨sx', hsx', hpages⟩ := hsame.exists_span hsx
    exact ⟨sx', hsx', (congrArg Prod.snd hpages).trans hk⟩
  · intro o ho
    obtain rfl | ho := List.mem_cons.mp ho
    · obtain ⟨sq', hsq', hpages⟩ := hsame.exists_span hsq
      exact ⟨q, sq', Function.update_self _ _ _, hsq', hpages,
        fun k hk => ((h.mem_erased hsq).mp hk).2 rfl⟩
    · obtain ⟨x, sx, hx, hsx, rfl, hnot, hxq⟩ := hout o ho
      obtain ⟨sx', hsx', hpages⟩ := hsame.exists_span hsx
      have hne : sx.pageAddr ≠ sq.pageAddr := fun he => hxq (h.eq_of_pageAddr hsx hsq he)
      exact ⟨x, sx', (Function.update_of_ne hne _ _).trans hx, hsx', hpages,
        fun k hk => hnot k ((h.mem_erased hsq).mp hk).1⟩
  · intro x sx' hsx'
    obtain ⟨sx, hsx, hpages⟩ := hsame.symm.exists_span hsx'
    rw [← hpages, ← show sx.numPages = sx'.numPages from congrArg Prod.snd hpages]
    by_cases hxq : x = q
    · rw [hxq, hsq] at hsx
      cases hsx
      exact .inr List.mem_cons_self
    · exact (h.placed x sx hsx).imp (fun hx => (h.mem_erased hsq).mpr ⟨hx, hxq⟩)
        (List.mem_cons_of_mem _)
  · intro a x hx
    dsimp only at hx
    rw [Function.update_apply] at hx
    split_ifs at hx with ha
    · cases hx
      obtain ⟨sq', hsq', hpages⟩ := hsame.exists_span hsq
      exact ⟨sq', hsq', (congrArg Prod.fst hpages).trans ha.symm⟩
    · obtain ⟨sx, hsx, haddr⟩ := h.mapped a x hx
      obtain ⟨sx', hsx', hpages⟩ := hsame.exists_span hsx
      exact ⟨sx', hsx', (congrArg Prod.fst hpages).trans haddr⟩
  · refine List.nodup_cons.mpr ⟨fun ho => ?_, h.nodup⟩
    obtain ⟨x, sx, -, hsx, hpages, -, hxq⟩ := hout _ ho
    exact hxq (h.eq_of_pageAddr hsx hsq (congrArg Prod.fst hpages))

/-- The head of a list is taken off and handed out as a whole. -/
theorem take (h : pc.Tidy out lists R) (hhead : getList k pc.freeSpans = p)
    (hsp : pc.spans p = some sp)
    (hfree : ∀ k', getList k' free' = if k' = k then sp.next else getList k' pc.freeSpans) :
    ∃ rest, sp.numPages = k ∧
      Tidy ⟨free', Function.update pc.spanMap sp.pageAddr (some p), pc.spans⟩ (sp.pages :: out)
        (Function.update lists k rest) R := by
  have hpath := h.linked k
  rw [hhead] at hpath
  obtain ⟨rest, r, hlist, hlink, hrest⟩ := hpath.tail (h.ne_null hsp)
  have hr : r = sp.next := by
    rw [links, hsp] at hlink
    exact (Option.some.inj hlink).symm
  have hmem : p ∈ lists k := by
    rw [hlist]
    exact List.mem_cons_self
  have herase : (lists k).erase p = rest := by rw [hlist, List.erase_cons_head]
  obtain rfl := h.numPages_of_mem hmem hsp
  have hlinked : ∀ k, Path null (links pc.spans) (getList k free')
      (Function.update lists sp.numPages ((lists sp.numPages).erase p) k) := by
    intro k
    rw [hfree, Function.update_apply, herase]
    split_ifs
    · rw [← hr]
      exact hrest
    · exact h.linked k
  have hunlist := h.unlist hsp hmem (SamePages.refl _) hlinked
  rw [herase] at hunlist
  exact ⟨rest, rfl, hunlist⟩

/-- The span that is handed out with these pages. -/
theorem user (h : pc.Tidy out lists R) (ho : sp.pages ∈ out) (hsp : pc.spans p = some sp) :
    pc.spanMap sp.pageAddr = some p ∧ ∀ k, p ∉ lists k := by
  obtain ⟨x, sx, hx, hsx, hpages, hnot⟩ := h.users _ ho
  obtain rfl := h.eq_of_pageAddr hsx hsp (congrArg Prod.fst hpages)
  exact ⟨hx, hnot⟩

/-- The other spans that are handed out. -/
theorem other (h : pc.Tidy (sp.pages :: out) lists R) (hsp : pc.spans p = some sp) {o : Ptr × ℕ}
    (ho : o ∈ out) : ∃ x sx, pc.spanMap o.1 = some x ∧ pc.spans x = some sx ∧ sx.pages = o ∧
      (∀ k, x ∉ lists k) ∧ x ≠ p := by
  obtain ⟨x, sx, hx, hsx, rfl, hnot⟩ := h.users o (List.mem_cons_of_mem _ ho)
  refine ⟨x, sx, hx, hsx, rfl, hnot, ?_⟩
  rintro rfl
  rw [hsp] at hsx
  cases hsx
  exact (List.nodup_cons.mp h.nodup).1 ho

/-- Spans that are handed out and start at the same page are the same. -/
theorem eq_of_fst (h : pc.Tidy out lists R) {o o' : Ptr × ℕ} (ho : o ∈ out) (ho' : o' ∈ out)
    (he : o.1 = o'.1) : o = o' := by
  obtain ⟨x, sx, hx, hsx, rfl, -⟩ := h.users o ho
  obtain ⟨y, sy, hy, hsy, rfl, -⟩ := h.users o' ho'
  rw [he, hy] at hx
  cases hx
  rw [hsx] at hsy
  cases hsy
  rfl

/-- A span that is handed out with some number of pages is not handed out with another. -/
theorem notMem_of_ne (h : pc.Tidy (sp.pages :: out) lists R) (hn : n ≠ sp.numPages) :
    (sp.pageAddr, n) ∉ out := by
  intro ho
  have he := h.eq_of_fst (List.mem_cons_of_mem _ ho) List.mem_cons_self rfl
  exact hn (congrArg Prod.snd he)

/-- A span that was handed out goes to the front of its list. -/
theorem put (h : pc.Tidy (sp.pages :: out) lists R) (hsp : pc.spans p = some sp) :
    Tidy { pc with
      freeSpans := setList sp.numPages p pc.freeSpans
      spans := Function.update pc.spans p
        (some { sp with next := getList sp.numPages pc.freeSpans }) } out
      (Function.update lists sp.numPages (p :: lists sp.numPages)) R := by
  have huser := h.user List.mem_cons_self hsp
  have hself : Function.update pc.spans p
      (some { sp with next := getList sp.numPages pc.freeSpans }) p =
        some { sp with next := getList sp.numPages pc.freeSpans } := Function.update_self p _ _
  have hne : ∀ k, ∀ x ∈ lists k, x ≠ p := by
    rintro k x hx rfl
    exact huser.2 k hx
  refine ⟨?_, ?_, ?_, ?_, ?_, ?_, ?_, (List.nodup_cons.mp h.nodup).2⟩
  · exact (Function.update_of_ne (h.ne_null hsp).symm _ _).trans h.noNull
  · have hsame : SamePages pc.spans (Function.update pc.spans p
        (some { sp with next := getList sp.numPages pc.freeSpans })) := samePages_update hsp rfl
    dsimp only
    rw [hsame.blocks_eq]
    exact h.tiles
  · have hlinked : ∀ k, Path null (links (Function.update pc.spans p
        (some { sp with next := getList sp.numPages pc.freeSpans }))) (getList k pc.freeSpans)
        (lists k) := by
      intro k
      apply (h.linked k).congr
      intro x hx
      rw [links, Function.update_of_ne (hne k x hx), links]
    intro k
    dsimp only
    rw [getList_setList, Function.update_apply]
    split_ifs
    · exact (hlinked _).cons (h.ne_null hsp) (by rw [links, hself]; rfl)
    · exact hlinked k
  · intro k x hx
    obtain ⟨rfl, rfl⟩ | hx := mem_pushed.mp hx
    · exact ⟨_, hself, rfl⟩
    · dsimp only
      rw [Function.update_of_ne (hne k x hx)]
      exact h.key k x hx
  · intro o ho
    obtain ⟨x, sx, hx, hsx, rfl, hnot, hxp⟩ := h.other hsp ho
    refine ⟨x, sx, hx, (Function.update_of_ne hxp _ _).trans hsx, rfl, fun k hk => ?_⟩
    obtain ⟨-, hk⟩ | hk := mem_pushed.mp hk
    · exact hxp hk
    · exact hnot k hk
  · intro x sx hsx
    dsimp only at hsx
    by_cases hxp : x = p
    · rw [hxp, hself] at hsx
      cases hsx
      exact .inl (mem_pushed.mpr (.inl ⟨rfl, hxp⟩))
    rw [Function.update_of_ne hxp] at hsx
    obtain hx | hx := h.placed x sx hsx
    · exact .inl (mem_pushed.mpr (.inr hx))
    · obtain he | hx := List.mem_cons.mp hx
      · exact absurd (h.eq_of_pageAddr hsx hsp (congrArg Prod.fst he)) hxp
      · exact .inr hx
  · intro a x hx
    obtain ⟨sx, hsx, haddr⟩ := h.mapped a x hx
    by_cases hxp : x = p
    · rw [hxp, hsp] at hsx
      cases hsx
      rw [hxp]
      exact ⟨_, hself, haddr⟩
    · exact ⟨sx, (Function.update_of_ne hxp _ _).trans hsx, haddr⟩

/-- Where no span that is handed out starts, an address may be mapped or not. -/
theorem remap (h : pc.Tidy out lists R) {map' : Ptr → Option Ptr}
    (husers : ∀ o ∈ out, map' o.1 = pc.spanMap o.1)
    (hmapped : ∀ a x, map' a = some x → ∃ sx, pc.spans x = some sx ∧ sx.pageAddr = a) :
    Tidy { pc with spanMap := map' } out lists R where
  noNull := h.noNull
  tiles := h.tiles
  linked := h.linked
  key := h.key
  users := by
    intro o ho
    dsimp only
    rw [husers o ho]
    exact h.users o ho
  placed := h.placed
  mapped := hmapped
  nodup := h.nodup

theorem perm (h : pc.Tidy out lists R) {out' : List (Ptr × ℕ)} (hp : out'.Perm out) :
    pc.Tidy out' lists R where
  noNull := h.noNull
  tiles := h.tiles
  linked := h.linked
  key := h.key
  users := fun o ho => h.users o (hp.mem_iff.mp ho)
  placed := fun x sx hsx => (h.placed x sx hsx).imp_right hp.mem_iff.mpr
  mapped := h.mapped
  nodup := hp.nodup_iff.mpr h.nodup

/-- Spans that are handed out change: the ones that `P` holds of were handed out as `old` and are
now handed out as `new`. The spans on the lists stay. -/
theorem exchange (old new : List (Ptr × ℕ)) (P : Ptr → Prop) {spans' : Ptr → Option Span}
    {map' : Ptr → Option Ptr} {R' : ℕ → Prop} (h : pc.Tidy (old ++ out) lists R) (hnull : ¬ P null)
    (hold : ∀ x sx, pc.spans x = some sx → (P x ↔ sx.pages ∈ old))
    (hkeep : ∀ x, ¬ P x → spans' x = pc.spans x) (htiles : Tiles (blocks spans') R')
    (hnew : ∀ o ∈ new, ∃ x sx, map' o.1 = some x ∧ spans' x = some sx ∧ sx.pages = o ∧ P x)
    (hplaced : ∀ x sx, P x → spans' x = some sx → sx.pages ∈ new)
    (hmap : ∀ o ∈ out, map' o.1 = pc.spanMap o.1)
    (hmapped : ∀ a x, map' a = some x → ∃ sx, spans' x = some sx ∧ sx.pageAddr = a)
    (hnodup : (new ++ out).Nodup) : Tidy ⟨pc.freeSpans, map', spans'⟩ (new ++ out) lists R' := by
  have hlisted : ∀ k, ∀ x ∈ lists k, ¬ P x := by
    intro k x hx hP
    obtain ⟨sx, hsx, -⟩ := h.key k x hx
    have ho := List.mem_append_left out ((hold x sx hsx).mp hP)
    exact (h.user ho hsx).2 k hx
  refine ⟨(hkeep null hnull).trans h.noNull, htiles, ?_, ?_, ?_, ?_, hmapped, hnodup⟩
  · intro k
    apply (h.linked k).congr
    intro x hx
    dsimp only [links]
    rw [hkeep x (hlisted k x hx)]
  · intro k x hx
    dsimp only
    rw [hkeep x (hlisted k x hx)]
    exact h.key k x hx
  · intro o ho
    obtain ho | ho := List.mem_append.mp ho
    · obtain ⟨x, sx, hx, hsx, hpages, hP⟩ := hnew o ho
      exact ⟨x, sx, hx, hsx, hpages, fun k hk => hlisted k x hk hP⟩
    · obtain ⟨x, sx, hx, hsx, rfl, hnot⟩ := h.users o (List.mem_append_right _ ho)
      have hP : ¬ P x := fun hP =>
        (List.nodup_append.mp h.nodup).2.2 _ ((hold x sx hsx).mp hP) _ ho rfl
      exact ⟨x, sx, (hmap _ ho).trans hx, (hkeep x hP).trans hsx, rfl, hnot⟩
  · intro x sx hsx
    by_cases hP : P x
    · exact .inr (List.mem_append_left _ (hplaced x sx hP hsx))
    dsimp only at hsx
    rw [hkeep x hP] at hsx
    refine (h.placed x sx hsx).imp_right fun hx => List.mem_append_right _ ?_
    exact (List.mem_append.mp hx).resolve_left fun ho => hP ((hold x sx hsx).mpr ho)

/-- The pages beyond the first `n` of a span that is handed out become a span of their own. -/
theorem divide (h : pc.Tidy (sp.pages :: out) lists R) (hsp : pc.spans p = some sp)
    (hnode : pc.spans node = none) (hne : node ≠ null) (hn : 0 < n) (hlt : n < sp.numPages)
    (next : Ptr) :
    Tidy ⟨pc.freeSpans, Function.update pc.spanMap (sp.pageAddr + n * pageSize) (some node),
      Function.update (Function.update pc.spans node
        (some ⟨next, sp.pageAddr + n * pageSize, sp.numPages - n⟩)) p
          (some { sp with numPages := n })⟩
      ((⟨next, sp.pageAddr + n * pageSize, sp.numPages - n⟩ : Span).pages ::
        (sp.pageAddr, n) :: out) lists R := by
  have huser := h.user List.mem_cons_self hsp
  have hpn := ne_of_none hsp hnode
  have hbytes : 0 < n * pageSize := Nat.mul_pos hn (by decide)
  have hfirst : sp.pageAddr ≠ sp.pageAddr + n * pageSize := (Nat.lt_add_of_pos_right hbytes).ne
  have hin : sp.block.Has (sp.pageAddr + n * pageSize) :=
    ⟨Nat.le_add_right _ _, Nat.add_lt_add_left (Nat.mul_lt_mul_of_pos_right hlt (by decide)) _⟩
  have hout : ∀ o ∈ out, o.1 ≠ sp.pageAddr + n * pageSize := by
    intro o ho
    obtain ⟨x, sx, -, hsx, rfl, -, hxp⟩ := h.other hsp ho
    exact h.pageAddr_ne hsp hsx hxp hin
  set spans' := Function.update (Function.update pc.spans node
    (some ⟨next, sp.pageAddr + n * pageSize, sp.numPages - n⟩)) p
    (some { sp with numPages := n }) with hspans'
  have hself : spans' p = some { sp with numPages := n } := Function.update_self p _ _
  have hnewnode : spans' node = some ⟨next, sp.pageAddr + n * pageSize, sp.numPages - n⟩ := by
    rw [hspans', Function.update_of_ne hpn.symm, Function.update_self]
  have hkeep : ∀ x, ¬ (x = p ∨ x = node) → spans' x = pc.spans x := by
    intro x hx
    rw [hspans', Function.update_of_ne fun hxp => hx (.inl hxp),
      Function.update_of_ne fun hxn => hx (.inr hxn)]
  refine exchange [sp.pages] [(⟨next, _, sp.numPages - n⟩ : Span).pages, (sp.pageAddr, n)]
    (fun x => x = p ∨ x = node) h ?_ ?_ hkeep ?_ ?_ ?_
    ?_ ?_ ?_
  · rintro (he | he)
    · exact h.ne_null hsp he.symm
    · exact hne he.symm
  · intro x sx hsx
    rw [List.mem_singleton]
    refine ⟨?_, fun he => .inl (h.eq_of_pageAddr hsx hsp (congrArg Prod.fst he))⟩
    rintro (rfl | rfl)
    · rw [Option.some.inj (hsp.symm.trans hsx)]
    · exact absurd rfl (ne_of_none hsx hnode)
  · rw [hspans', blocks_update, blocks_update]
    apply h.tiles.split
    · rw [blocks_eq_some]
      refine ⟨sp, hsp, ?_⟩
      rw [Span.block, ← Nat.add_mul, Nat.add_sub_cancel' hlt.le]
    · rw [blocks, hnode]
      rfl
    · exact hbytes
    · exact Nat.mul_pos (Nat.sub_pos_of_lt hlt) (by decide)
  · intro o ho
    obtain rfl | ho := List.mem_cons.mp ho
    · exact ⟨node, _, Function.update_self _ _ _, hnewnode, rfl, .inr rfl⟩
    · obtain rfl := List.mem_singleton.mp ho
      exact ⟨p, _, (Function.update_of_ne hfirst _ _).trans huser.1, hself, rfl, .inl rfl⟩
  · rintro x sx (rfl | rfl) hsx
    · obtain rfl := Option.some.inj (hself.symm.trans hsx)
      exact List.mem_cons_of_mem _ List.mem_cons_self
    · obtain rfl := Option.some.inj (hnewnode.symm.trans hsx)
      exact List.mem_cons_self
  · intro o ho
    exact Function.update_of_ne (hout o ho) _ _
  · intro a x hx
    rw [Function.update_apply] at hx
    split_ifs at hx with ha
    · cases hx
      exact ⟨_, hnewnode, ha.symm⟩
    obtain ⟨sx, hsx, haddr⟩ := h.mapped a x hx
    by_cases hxp : x = p
    · rw [hxp, hsp] at hsx
      cases hsx
      exact ⟨{ sp with numPages := n }, hxp ▸ hself, haddr⟩
    · exact ⟨sx, (hkeep x (not_or.mpr ⟨hxp, ne_of_none hsx hnode⟩)).trans hsx, haddr⟩
  · refine List.nodup_cons.mpr ⟨fun ho => ?_, ?_⟩
    · obtain he | ho := List.mem_cons.mp ho
      · exact hfirst (congrArg Prod.fst he).symm
      · exact hout _ ho rfl
    · exact List.nodup_cons.mpr ⟨h.notMem_of_ne hlt.ne, (List.nodup_cons.mp h.nodup).2⟩

/-- The pages beyond the first `n` of a span that is handed out become a span of a free list. -/
theorem split (h : pc.Tidy (sp.pages :: out) lists R) (hsp : pc.spans p = some sp)
    (hnode : pc.spans node = none) (hne : node ≠ null) (hn : 0 < n) (hlt : n < sp.numPages) :
    Tidy ⟨setList (sp.numPages - n) node pc.freeSpans, pc.spanMap,
      Function.update (Function.update pc.spans node (some ⟨getList (sp.numPages - n) pc.freeSpans,
        sp.pageAddr + n * pageSize, sp.numPages - n⟩)) p (some { sp with numPages := n })⟩
      ((sp.pageAddr, n) :: out)
      (Function.update lists (sp.numPages - n) (node :: lists (sp.numPages - n))) R := by
  have hdivide := h.divide hsp hnode hne hn hlt (getList (sp.numPages - n) pc.freeSpans)
  set spans' := Function.update (Function.update pc.spans node
    (some ⟨getList (sp.numPages - n) pc.freeSpans, sp.pageAddr + n * pageSize, sp.numPages - n⟩)) p
    (some { sp with numPages := n }) with hspans'
  have hnewnode : spans' node = some ⟨getList (sp.numPages - n) pc.freeSpans,
      sp.pageAddr + n * pageSize, sp.numPages - n⟩ := by
    rw [hspans', Function.update_of_ne (ne_of_none hsp hnode).symm, Function.update_self]
  -- the new span has its link already
  have hsame : Function.update spans' node (some ⟨getList (sp.numPages - n) pc.freeSpans,
      sp.pageAddr + n * pageSize, sp.numPages - n⟩) = spans' :=
    Function.update_eq_self_iff.mpr hnewnode.symm
  have hput := hdivide.put hnewnode
  dsimp only at hput
  rw [hsame] at hput
  refine hput.remap (fun o ho => ?_) fun a x hx => ?_
  · refine (Function.update_of_ne ?_ _ _).symm
    have hnodup := (List.nodup_cons.mp hdivide.nodup).1
    intro he
    have ho' := hdivide.eq_of_fst (List.mem_cons_of_mem _ ho) List.mem_cons_self he
    exact hnodup (ho' ▸ ho)
  · obtain ⟨sx, hsx, haddr⟩ := h.mapped a x hx
    dsimp only
    rw [hspans']
    by_cases hxp : x = p
    · rw [hxp, hsp] at hsx
      cases hsx
      rw [hxp, Function.update_self]
      exact ⟨_, rfl, haddr⟩
    · rw [Function.update_of_ne hxp, Function.update_of_ne (ne_of_none hsx hnode)]
      exact ⟨sx, hsx, haddr⟩

/-- Pages that came from the system are handed out as a span of their own. -/
theorem obtainPages (h : pc.Tidy out lists R) {map : Ptr} (hnode : pc.spans node = none)
    (hne : node ≠ null) (hn : 0 < n)
    (hout : ∀ x, (⟨map, n * pageSize⟩ : Block).Has x → ¬ R x) :
    Tidy { pc with
      spans := Function.update pc.spans node (some ⟨null, map, n⟩)
      spanMap := Function.update pc.spanMap map (some node) } ((map, n) :: out) lists
      fun x => R x ∨ (⟨map, n * pageSize⟩ : Block).Has x := by
  have hother : ∀ x sx, pc.spans x = some sx → x ≠ node ∧ sx.pageAddr ≠ map := by
    intro x sx hsx
    refine ⟨ne_of_none hsx hnode, ?_⟩
    rintro rfl
    have hhas : sx.block.Has sx.pageAddr :=
      ⟨le_rfl, Nat.lt_add_of_pos_right (Nat.mul_pos (h.pos hsx) (by decide))⟩
    refine hout sx.pageAddr ⟨le_rfl, Nat.lt_add_of_pos_right (Nat.mul_pos hn (by decide))⟩ ?_
    exact (h.tiles.cover _).mpr ⟨x, _, blocks_eq_some.mpr ⟨sx, hsx, rfl⟩, hhas⟩
  have husers : ∀ o ∈ out, o.1 ≠ map := by
    intro o ho
    obtain ⟨x, sx, -, hsx, rfl, -⟩ := h.users o ho
    exact (hother x sx hsx).2
  refine exchange [] [(map, n)] (fun x => x = node) h hne.symm ?_ ?_ ?_ ?_ ?_
    ?_ ?_ ?_
  · intro x sx hsx
    exact iff_of_false (hother x sx hsx).1 List.not_mem_nil
  · intro x hx
    exact Function.update_of_ne hx _ _
  · rw [blocks_update]
    apply h.tiles.add _ (Nat.mul_pos hn (by decide)) hout
    rw [blocks, hnode]
    rfl
  · intro o ho
    obtain rfl := List.mem_singleton.mp ho
    exact ⟨node, ⟨null, map, n⟩, Function.update_self _ _ _, Function.update_self _ _ _, rfl, rfl⟩
  · rintro x sx rfl hsx
    rw [Function.update_self] at hsx
    cases hsx
    exact List.mem_cons_self
  · intro o ho
    exact Function.update_of_ne (husers o ho) _ _
  · intro a x hx
    rw [Function.update_apply] at hx
    split_ifs at hx with ha
    · cases hx
      exact ⟨⟨null, map, n⟩, Function.update_self _ _ _, ha.symm⟩
    · obtain ⟨sx, hsx, haddr⟩ := h.mapped a x hx
      exact ⟨sx, (Function.update_of_ne (hother x sx hsx).1 _ _).trans hsx, haddr⟩
  · exact List.nodup_cons.mpr ⟨fun ho => husers _ ho rfl, h.nodup⟩

/-- Other keys with null pointers make no difference. -/
theorem relist (h : pc.Tidy out lists R) (hfree : ∀ k, getList k free' = getList k pc.freeSpans) :
    Tidy { pc with freeSpans := free' } out lists R where
  noNull := h.noNull
  tiles := h.tiles
  linked := by
    intro k
    dsimp only
    rw [hfree]
    exact h.linked k
  key := h.key
  users := h.users
  placed := h.placed
  mapped := h.mapped
  nodup := h.nodup

/-- A span that is handed out right behind another one joins it. -/
theorem unite (h : pc.Tidy (sq.pages :: sp.pages :: out) lists R) (hsp : pc.spans p = some sp)
    (hsq : pc.spans q = some sq) (hnext : sq.pageAddr = sp.pageAddr + sp.numPages * pageSize) :
    Tidy ⟨pc.freeSpans, Function.update pc.spanMap sq.pageAddr none,
      Function.update (Function.update pc.spans p
        (some { sp with numPages := sp.numPages + sq.numPages })) q none⟩
      ((sp.pageAddr, sp.numPages + sq.numPages) :: out) lists R := by
  have h' : pc.Tidy (sp.pages :: sq.pages :: out) lists R := h.perm (List.Perm.swap ..)
  have hout : ∀ o ∈ out, o.1 ≠ sq.pageAddr := by
    intro o ho
    obtain ⟨x, sx, -, hsx, rfl, -, hxq⟩ := h.other hsq (List.mem_cons_of_mem _ ho)
    exact fun he => hxq (h.eq_of_pageAddr hsx hsq he)
  have hne : sp.pageAddr ≠ sq.pageAddr := by
    rw [hnext]
    exact (Nat.lt_add_of_pos_right (Nat.mul_pos (h.pos hsp) (by decide))).ne
  have hpq : p ≠ q := by
    rintro rfl
    rw [hsp] at hsq
    cases hsq
    exact hne rfl
  set spans' := Function.update (Function.update pc.spans p
    (some { sp with numPages := sp.numPages + sq.numPages })) q none with hspans'
  have hself : spans' p = some { sp with numPages := sp.numPages + sq.numPages } := by
    rw [hspans', Function.update_of_ne hpq, Function.update_self]
  have hkeep : ∀ x, ¬ (x = p ∨ x = q) → spans' x = pc.spans x := by
    intro x hx
    rw [hspans', Function.update_of_ne fun hxq => hx (.inr hxq),
      Function.update_of_ne fun hxp => hx (.inl hxp)]
  refine exchange [sq.pages, sp.pages] [(sp.pageAddr, sp.numPages + sq.numPages)]
    (fun x => x = p ∨ x = q) h ?_ ?_ hkeep ?_ ?_ ?_ ?_ ?_ ?_
  · rintro (he | he)
    · exact h.ne_null hsp he.symm
    · exact h.ne_null hsq he.symm
  · intro x sx hsx
    rw [List.mem_pair]
    constructor
    · rintro (rfl | rfl)
      · exact .inr (by rw [Option.some.inj (hsp.symm.trans hsx)])
      · exact .inl (by rw [Option.some.inj (hsq.symm.trans hsx)])
    · rintro (he | he)
      · exact .inr (h.eq_of_pageAddr hsx hsq (congrArg Prod.fst he))
      · exact .inl (h.eq_of_pageAddr hsx hsp (congrArg Prod.fst he))
  · rw [hspans', blocks_delete, blocks_update, Span.block, Nat.add_mul]
    apply h.tiles.join (blocks_eq_some.mpr ⟨sp, hsp, rfl⟩) _ hpq
    exact blocks_eq_some.mpr ⟨sq, hsq, by rw [Span.block, hnext]⟩
  · intro o ho
    obtain rfl := List.mem_singleton.mp ho
    have hp := (h'.user List.mem_cons_self hsp).1
    exact ⟨p, _, (Function.update_of_ne hne _ _).trans hp, hself, rfl, .inl rfl⟩
  · rintro x sx (rfl | rfl) hsx
    · obtain rfl := Option.some.inj (hself.symm.trans hsx)
      exact List.mem_cons_self
    · rw [hspans', Function.update_self] at hsx
      cases hsx
  · intro o ho
    exact Function.update_of_ne (hout o ho) _ _
  · intro a x hx
    rw [Function.update_apply] at hx
    split_ifs at hx with ha
    obtain ⟨sx, hsx, haddr⟩ := h.mapped a x hx
    by_cases hxp : x = p
    · rw [hxp, hsp] at hsx
      cases hsx
      rw [hxp]
      exact ⟨_, hself, haddr⟩
    · refine ⟨sx, (hkeep x (not_or.mpr ⟨hxp, ?_⟩)).trans hsx, haddr⟩
      rintro rfl
      rw [hsq] at hsx
      cases hsx
      exact ha haddr.symm
  · have hpos := h.pos hsq
    have hnodup := (List.nodup_cons.mp (List.nodup_cons.mp h.nodup).2).2
    refine List.nodup_cons.mpr ⟨fun ho => ?_, hnodup⟩
    exact h'.notMem_of_ne (by omega) (List.mem_cons_of_mem _ ho)

/-- A listed span right behind one that is handed out is taken off its list and joins it. -/
theorem join (h : pc.Tidy (sp.pages :: out) lists R) (hsp : pc.spans p = some sp)
    (hsq : pc.spans q = some sq) (hq : q ∈ lists sq.numPages)
    (hnext : sq.pageAddr = sp.pageAddr + sp.numPages * pageSize) {spans' : Ptr → Option Span}
    (hsame : SamePages pc.spans spans')
    (hlinked : ∀ k, Path null (links spans') (getList k free')
      (Function.update lists sq.numPages ((lists sq.numPages).erase q) k))
    {sp' : Span} (hsp' : spans' p = some sp') :
    Tidy ⟨free', Function.update pc.spanMap sq.pageAddr none,
      Function.update (Function.update spans' p
        (some { sp' with numPages := sp'.numPages + sq.numPages })) q none⟩
      ((sp.pageAddr, sp.numPages + sq.numPages) :: out)
      (Function.update lists sq.numPages ((lists sq.numPages).erase q)) R := by
  have hunlist := h.unlist hsq hq hsame hlinked
  obtain ⟨sq', hsq', hq'⟩ := hsame.exists_span hsq
  have hp' := hsame.pages_eq hsp hsp'
  have hqaddr : sq'.pageAddr = sq.pageAddr := congrArg Prod.fst hq'
  have hqnum : sq'.numPages = sq.numPages := congrArg Prod.snd hq'
  have hpaddr : sp'.pageAddr = sp.pageAddr := congrArg Prod.fst hp'
  have hpnum : sp'.numPages = sp.numPages := congrArg Prod.snd hp'
  rw [← hq', ← hp'] at hunlist
  have hunite := hunlist.unite hsp' hsq' (by rw [hqaddr, hpaddr, hpnum, hnext])
  rw [hqaddr, hqnum, Function.update_idem] at hunite
  rwa [← hpaddr, ← hpnum]

end PageCache.Tidy

end Cache
end KvStore
