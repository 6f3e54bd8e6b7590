import KvStore.Cache.Conserve

/-! The null pointers that `freeSpans_[k]` leaves behind in `deallocateSpan`, and when `allocateSpan`
can come upon one. -/
namespace KvStore
open Guarded

namespace Cache
open PageCache

section Lists

variable {k k' : ℕ} {p q : Ptr} {l : List (ℕ × Ptr)} {e : ℕ × Ptr}

theorem mem_setList (h : e ∈ setList k p l) : e = (k, p) ∨ e ∈ l := by
  induction l with
  | nil => exact .inl (List.mem_singleton.mp h)
  | cons x l ih =>
    rw [setList] at h
    split_ifs at h
    · exact List.mem_cons.mp h
    · exact (List.mem_cons.mp h).imp_right (List.mem_cons_of_mem x)
    · obtain rfl | h := List.mem_cons.mp h
      · exact .inr List.mem_cons_self
      · exact (ih h).imp_right (List.mem_cons_of_mem x)

theorem mem_setList_self (k : ℕ) (p : Ptr) (l : List (ℕ × Ptr)) : (k, p) ∈ setList k p l := by
  induction l with
  | nil => exact List.mem_singleton_self _
  | cons x l ih =>
    rw [setList]
    split_ifs
    · exact List.mem_cons_self
    · exact List.mem_cons_self
    · exact List.mem_cons_of_mem x ih

theorem mem_setList_of_ne (he : e ∈ l) (hk : e.1 ≠ k) : e ∈ setList k p l := by
  induction l with
  | nil => cases he
  | cons x l ih =>
    rw [setList]
    split_ifs with hlt heq
    · exact List.mem_cons_of_mem _ he
    · obtain rfl | he := List.mem_cons.mp he
      · exact absurd heq.symm hk
      · exact List.mem_cons_of_mem _ he
    · obtain rfl | he := List.mem_cons.mp he
      · exact List.mem_cons_self
      · exact List.mem_cons_of_mem x (ih he)

/-- The later assignment counts. -/
theorem setList_setList (k : ℕ) (p q : Ptr) (l : List (ℕ × Ptr)) :
    setList k q (setList k p l) = setList k q l := by
  induction l with
  | nil => simp [setList]
  | cons x l ih =>
    by_cases hlt : k < x.1
    · simp [setList, hlt]
    by_cases heq : k = x.1
    · simp [setList, heq]
    · simp [setList, hlt, heq, ih]

end Lists

/-- Every key leads to a span, so `lower_bound` finds one. -/
structure PageCache.Headed (pc : PageCache) : Prop where
  heads : ∀ e ∈ pc.freeSpans, e.2 ≠ null
  found : ∀ numPages e, pc.freeSpans.find? (numPages ≤ ·.1) = some e → e.2 ≠ null

theorem PageCache.headed_iff {pc : PageCache} :
    pc.Headed ↔ ∀ e ∈ pc.freeSpans, e.2 ≠ null :=
  ⟨Headed.heads, fun h => ⟨h, fun _ e he => h e (List.mem_of_find?_eq_some he)⟩⟩

/-- The span behind the one that is given back is not the only one of its free list, and when no
span of its size is free it has the size of the one that is given back. -/
def PageCall.KeepsHeads (s : PageRun) : PageCall → Prop
  | allocate _ _ _ => True
  | deallocate ptr numPages _ => (ptr, numPages) ∈ s.out → ∀ p sp q sq,
    s.pc.spanMap ptr = some p → s.pc.spans p = some sp →
    s.pc.spanMap (ptr + numPages * pageSize) = some q → s.pc.spans q = some sq →
    (getList sq.numPages s.pc.freeSpans = q → sq.next ≠ null) ∧
    (getList sq.numPages s.pc.freeSpans = null → sq.numPages = sp.numPages)

/-- The invariant under which the condition is exact. -/
structure PageRun.Rooted (s : PageRun) : Prop where
  heads : ∀ e ∈ s.pc.freeSpans, e.2 ≠ null
  nonnull : ∀ a p, s.pc.spanMap a = some p → p ≠ null
  mapped : ∀ a p, s.pc.spanMap a = some p → ∃ sp, s.pc.spans p = some sp ∧ sp.pageAddr = a
  pos : ∀ p sp, s.pc.spans p = some sp → 0 < sp.numPages
  users : ∀ o ∈ s.out, 0 < o.2

section Searches

variable {spans spans' : Ptr → Option Span} {pc pc' : PageCache} {p q target prev : Ptr} {n : ℕ}
  {sp sq : Span}

theorem SamePages.pageAddr (h : SamePages spans spans') {x : Ptr} {sx : Span}
    (hx : spans x = some sx) : ∃ sx', spans' x = some sx' ∧ sx'.pageAddr = sx.pageAddr ∧
      sx'.numPages = sx.numPages := by
  obtain ⟨sx', hsx', hpages⟩ := h.exists_span hx
  exact ⟨sx', hsx', congrArg Prod.fst hpages, congrArg Prod.snd hpages⟩

theorem unlinkSpan_samePages {b : Bool} (h : unlinkSpan spans target n prev = some (b, spans')) :
    SamePages spans spans' := by
  induction n generalizing prev with
  | zero => cases h
  | succ n ih =>
    obtain ⟨q, hq, h⟩ := Option.bind_eq_some_iff.mp h
    split_ifs at h
    · cases h
      exact fun _ => rfl
    · obtain ⟨t, -, h⟩ := Option.bind_eq_some_iff.mp h
      cases h
      exact samePages_update hq rfl
    · exact ih h

/-- What the search makes of the list of the span behind. -/
theorem searchNext_cases {found : Bool} {first : Ptr}
    (h : pc.searchNext n q sq = some (found, first, spans)) : SamePages pc.spans spans ∧
      (getList sq.numPages pc.freeSpans = q ∧ found = true ∧ first = sq.next ∨
        getList sq.numPages pc.freeSpans ≠ null ∧ first = getList sq.numPages pc.freeSpans ∨
        getList sq.numPages pc.freeSpans = null ∧ found = false ∧ first = null) := by
  unfold searchNext at h
  by_cases hhead : getList sq.numPages pc.freeSpans = q
  · rw [if_pos hhead] at h
    cases h
    exact ⟨fun _ => rfl, .inl ⟨hhead, rfl, rfl⟩⟩
  rw [if_neg hhead] at h
  by_cases hnull : getList sq.numPages pc.freeSpans = null
  · rw [if_neg (not_not.mpr hnull)] at h
    cases h
    exact ⟨fun _ => rfl, .inr (.inr ⟨hnull, rfl, rfl⟩)⟩
  · rw [if_pos hnull] at h
    obtain ⟨⟨b, spans'⟩, hunlink, h⟩ := Option.map_eq_some_iff.mp h
    cases h
    exact ⟨unlinkSpan_samePages hunlink, .inr (.inl ⟨hnull, rfl⟩)⟩

end Searches

section Steps

variable {s s' : PageRun} {q : Ptr} {numPages node map : ℕ}

theorem PageRun.Rooted.start (mem : ℕ → UInt8) : (PageRun.start mem).Rooted where
  heads := fun _ h => nomatch h
  nonnull := fun _ _ h => nomatch h
  mapped := fun _ _ h => nomatch h
  pos := fun _ _ h => nomatch h
  users := fun _ h => nomatch h

/-- The lists behind the head that is taken off. -/
theorem heads_take (k : ℕ) (next : Ptr) {l : List (ℕ × Ptr)} (h : ∀ e ∈ l, e.2 ≠ null) :
    ∀ e ∈ (if next ≠ null then setList k next l else l.filter (·.1 ≠ k)), e.2 ≠ null := by
  intro e he
  split_ifs at he with hnext
  · obtain rfl | he := mem_setList he
    · exact hnext
    · exact h e he
  · exact h e (List.mem_of_mem_filter he)

theorem PageRun.Rooted.takeSpan {pc' : PageCache} {k p : ℕ} {out : List (Ptr × ℕ)}
    {mem : ℕ → UInt8} {obtained : List Memory.Block} (h : s.Rooted) (hp : p ≠ null)
    (hn : 0 < numPages) (hnode : s.pc.spans node = none) (hne : node ≠ null)
    (hout : ∀ o ∈ out, 0 < o.2)
    (hr : s.pc.takeSpan numPages k p node = some (q, pc')) : (⟨pc', mem, out, obtained⟩ : PageRun).Rooted := by
  obtain ⟨sp, hsp, hr⟩ := Option.bind_eq_some_iff.mp hr
  dsimp only at hr
  have hfree := heads_take k sp.next h.heads
  have hnonnull : ∀ a x, Function.update s.pc.spanMap sp.pageAddr (some p) a = some x → x ≠ null := by
    intro a x hx
    rw [Function.update_apply] at hx
    split_ifs at hx
    · cases hx
      exact hp
    · exact h.nonnull a x hx
  have hmapped : ∀ a x, Function.update s.pc.spanMap sp.pageAddr (some p) a = some x →
      ∃ sx, s.pc.spans x = some sx ∧ sx.pageAddr = a := by
    intro a x hx
    rw [Function.update_apply] at hx
    split_ifs at hx with ha
    · cases hx
      exact ⟨sp, hsp, ha.symm⟩
    · exact h.mapped a x hx
  by_cases hlt : numPages < sp.numPages
  · rw [if_pos hlt] at hr
    cases hr
    refine ⟨?_, hnonnull, ?_, ?_, hout⟩
    · intro e he
      obtain rfl | he := mem_setList he
      · exact hne
      · exact hfree e he
    · intro a x hx
      obtain ⟨sx, hsx, ha⟩ := hmapped a x hx
      by_cases hxp : x = p
      · subst hxp
        rw [hsp] at hsx
        cases hsx
        exact ⟨{ sp with numPages := numPages }, Function.update_self x _ _, ha⟩
      · have hxn := ne_of_none hsx hnode
        refine ⟨sx, ?_, ha⟩
        dsimp only
        rw [Function.update_of_ne hxp, Function.update_of_ne hxn, hsx]
    · intro x sx hsx
      dsimp only at hsx
      by_cases hxp : x = p
      · rw [hxp, Function.update_self] at hsx
        cases hsx
        exact hn
      rw [Function.update_of_ne hxp] at hsx
      by_cases hxn : x = node
      · rw [hxn, Function.update_self] at hsx
        cases hsx
        exact Nat.sub_pos_of_lt hlt
      · rw [Function.update_of_ne hxn] at hsx
        exact h.pos x sx hsx
  · rw [if_neg hlt] at hr
    cases hr
    exact ⟨hfree, hnonnull, hmapped, h.pos, hout⟩

theorem PageRun.Rooted.allocate (h : s.Rooted)
    (hr : pageStep s (.allocate numPages node map) = some (q, s')) : s'.Rooted := by
  have hvalid := pageStep_valid hr
  rw [pageStep, if_pos hvalid] at hr
  obtain ⟨hn, hnode, hfresh, -⟩ := hvalid
  obtain ⟨⟨r, pc, mem⟩, halloc, hr⟩ := Option.map_eq_some_iff.mp hr
  cases hr
  have hout : ∀ o ∈ (if r = null then s.out else (r, numPages) :: s.out), 0 < o.2 := by
    intro o ho
    split_ifs at ho
    · exact h.users o ho
    · obtain rfl | ho := List.mem_cons.mp ho
      · exact hn
      · exact h.users o ho
  rw [allocateSpan] at halloc
  cases hfind : s.pc.freeSpans.find? (numPages ≤ ·.1) with
  | some e =>
    obtain ⟨k, p⟩ := e
    rw [hfind] at halloc
    obtain ⟨⟨y, pc₁⟩, htake, halloc⟩ := Option.bind_eq_some_iff.mp halloc
    cases halloc
    exact h.takeSpan (h.heads _ (List.mem_of_find?_eq_some hfind)) hn hfresh hnode hout htake
  | none =>
    rw [hfind] at halloc
    dsimp only at halloc
    by_cases hnull : map = null
    · rw [if_pos hnull] at halloc
      cases halloc
      exact ⟨h.heads, h.nonnull, h.mapped, h.pos, hout⟩
    · rw [if_neg hnull] at halloc
      cases halloc
      refine ⟨h.heads, ?_, ?_, ?_, hout⟩
      · intro a x hx
        dsimp only at hx
        rw [Function.update_apply] at hx
        split_ifs at hx
        · cases hx
          exact hnode
        · exact h.nonnull a x hx
      · intro a x hx
        dsimp only at hx ⊢
        rw [Function.update_apply] at hx
        split_ifs at hx with ha
        · cases hx
          exact ⟨⟨null, map, numPages⟩, Function.update_self _ _ _, ha.symm⟩
        · obtain ⟨sx, hsx, haddr⟩ := h.mapped a x hx
          have hxn : x ≠ node := by
            rintro rfl
            rw [hfresh] at hsx
            cases hsx
          exact ⟨sx, (Function.update_of_ne hxn _ _).trans hsx, haddr⟩
      · intro x sx hsx
        dsimp only at hsx
        rw [Function.update_apply] at hsx
        split_ifs at hsx
        · cases hsx
          exact hn
        · exact h.pos x sx hsx

/-- The merge, as far as the keys and the pages go. -/
theorem PageRun.Rooted.mergeNext {pc' : PageCache} {p : Ptr} {sp sq : Span} {n nextAddr : ℕ}
    (h : s.Rooted) (hsp : s.pc.spans p = some sp) (hq : s.pc.spanMap nextAddr = some q)
    (hsq : s.pc.spans q = some sq) (hpq : p ≠ q)
    (hr : s.pc.mergeNext n p q nextAddr = some pc') :
    (∃ found first sp', (getList sq.numPages s.pc.freeSpans = q ∧ found = true ∧ first = sq.next ∨
        getList sq.numPages s.pc.freeSpans ≠ null ∧ first = getList sq.numPages s.pc.freeSpans ∨
        getList sq.numPages s.pc.freeSpans = null ∧ found = false ∧ first = null) ∧
      pc'.freeSpans = setList sq.numPages first s.pc.freeSpans ∧ pc'.spans p = some sp' ∧
      (found = false → sp'.numPages = sp.numPages)) ∧
    (∀ a x, pc'.spanMap a = some x → x ≠ null) ∧
    (∀ a x, pc'.spanMap a = some x → ∃ sx, pc'.spans x = some sx ∧ sx.pageAddr = a) ∧
    ∀ x sx, pc'.spans x = some sx → 0 < sx.numPages := by
  rw [mergeNext_eq, hsq, Option.bind_some] at hr
  obtain ⟨⟨found, first, spans⟩, hsearch, hr⟩ := Option.bind_eq_some_iff.mp hr
  obtain ⟨hsame, hcases⟩ := searchNext_cases hsearch
  obtain ⟨sp', hsp', haddr, hnum⟩ := hsame.pageAddr hsp
  have hpos : ∀ x sx, spans x = some sx → 0 < sx.numPages := by
    intro x sx hsx
    obtain ⟨sy, hsy, -, hy⟩ := hsame.symm.pageAddr hsx
    rw [← hy]
    exact h.pos x sy hsy
  have hmapped : ∀ a x, s.pc.spanMap a = some x → ∃ sx, spans x = some sx ∧ sx.pageAddr = a := by
    intro a x hx
    obtain ⟨sx, hsx, ha⟩ := h.mapped a x hx
    obtain ⟨sx', hsx', ha', -⟩ := hsame.pageAddr hsx
    exact ⟨sx', hsx', ha'.trans ha⟩
  dsimp only at hr
  cases found with
  | false =>
    rw [if_neg Bool.false_ne_true] at hr
    cases hr
    exact ⟨⟨false, first, sp', hcases, rfl, hsp', fun _ => hnum⟩, h.nonnull, hmapped, hpos⟩
  | true =>
    rw [if_pos rfl, hsp'] at hr
    cases hr
    have hself : Function.update (Function.update spans p
        (some { sp' with numPages := sp'.numPages + sq.numPages })) q none p =
          some { sp' with numPages := sp'.numPages + sq.numPages } := by
      rw [Function.update_of_ne hpq, Function.update_self]
    refine ⟨⟨true, first, _, hcases, rfl, hself, fun hno => nomatch hno⟩, ?_, ?_, ?_⟩
    · intro a x hx
      dsimp only at hx
      rw [Function.update_apply] at hx
      split_ifs at hx
      exact h.nonnull a x hx
    · intro a x hx
      dsimp only at hx ⊢
      rw [Function.update_apply] at hx
      split_ifs at hx with ha
      have hxq : x ≠ q := by
        rintro rfl
        obtain ⟨sy, hsy, hy⟩ := h.mapped a x hx
        obtain ⟨sz, hsz, hz⟩ := h.mapped nextAddr x hq
        rw [hsy] at hsz
        cases hsz
        exact ha (hy.symm.trans hz)
      obtain ⟨sx, hsx, haddr'⟩ := hmapped a x hx
      by_cases hxp : x = p
      · rw [hxp, hsp'] at hsx
        cases hsx
        rw [hxp]
        exact ⟨_, hself, haddr'⟩
      · refine ⟨sx, ?_, haddr'⟩
        rw [Function.update_of_ne hxq, Function.update_of_ne hxp, hsx]
    · intro x sx hsx
      dsimp only at hsx
      rw [Function.update_apply] at hsx
      split_ifs at hsx
      by_cases hxp : x = p
      · rw [hxp, Function.update_self] at hsx
        cases hsx
        exact Nat.add_pos_left (hpos p sp' hsp') _
      · rw [Function.update_of_ne hxp] at hsx
        exact hpos x sx hsx

/-- The span behind is another one. -/
theorem PageRun.Rooted.ne_next {ptr p : Ptr} (h : s.Rooted) (hn : 0 < numPages)
    (hp : s.pc.spanMap ptr = some p) (hq : s.pc.spanMap (ptr + numPages * pageSize) = some q) :
    p ≠ q := by
  rintro rfl
  obtain ⟨sp, hsp, hptr⟩ := h.mapped _ _ hp
  obtain ⟨sq, hsq, hnext⟩ := h.mapped _ _ hq
  rw [hsp] at hsq
  cases hsq
  have hpos := Nat.mul_pos hn (show 0 < pageSize by decide)
  exact absurd (hptr.symm.trans hnext) (Nat.lt_add_of_pos_right hpos).ne

theorem PageRun.Rooted.deallocate {ptr : Ptr} {rounds : ℕ} (h : s.Rooted)
    (hc : (PageCall.deallocate ptr numPages rounds).KeepsHeads s)
    (hr : pageStep s (.deallocate ptr numPages rounds) = some (q, s')) : s'.Rooted := by
  have hvalid := pageStep_valid hr
  rw [pageStep, if_pos hvalid] at hr
  obtain ⟨pc', hdealloc, he⟩ := Option.map_eq_some_iff.mp hr
  clear hr
  cases he
  have hout : ∀ o ∈ s.out.erase (ptr, numPages), 0 < o.2 :=
    fun o ho => h.users o (List.mem_of_mem_erase ho)
  rw [deallocateSpan_eq] at hdealloc
  cases hp : s.pc.spanMap ptr with
  | none =>
    rw [hp] at hdealloc
    cases hdealloc
    exact ⟨h.heads, h.nonnull, h.mapped, h.pos, hout⟩
  | some p =>
    rw [hp] at hdealloc
    obtain ⟨sp, hsp, -⟩ := h.mapped ptr p hp
    obtain ⟨pc₁, hmerge, hdealloc⟩ := Option.bind_eq_some_iff.mp hdealloc
    obtain ⟨sp₁, hsp₁, rfl⟩ := Option.map_eq_some_iff.mp hdealloc
    -- what the merge leaves, with the list that the span itself goes to
    have hmerged : (∀ e ∈ setList sp₁.numPages p pc₁.freeSpans, e.2 ≠ null) ∧
        (∀ a x, pc₁.spanMap a = some x → x ≠ null) ∧
        (∀ a x, pc₁.spanMap a = some x → ∃ sx, pc₁.spans x = some sx ∧ sx.pageAddr = a) ∧
        ∀ x sx, pc₁.spans x = some sx → 0 < sx.numPages := by
      have hpne := h.nonnull ptr p hp
      cases hq : s.pc.spanMap (ptr + numPages * pageSize) with
      | none =>
        rw [hq] at hmerge
        cases hmerge
        refine ⟨?_, h.nonnull, h.mapped, h.pos⟩
        intro e he
        obtain rfl | he := mem_setList he
        · exact hpne
        · exact h.heads e he
      | some q =>
        rw [hq] at hmerge
        obtain ⟨sq, hsq, -⟩ := h.mapped _ q hq
        obtain ⟨hhead, hnull⟩ := hc hvalid p sp q sq hp hsp hq hsq
        obtain ⟨⟨found, first, sp', hcases, hfree, hsp', hnum⟩, hrest⟩ :=
          h.mergeNext hsp hq hsq (h.ne_next (h.users _ hvalid) hp hq) hmerge
        rw [hsp'] at hsp₁
        cases hsp₁
        refine ⟨?_, hrest⟩
        rw [hfree]
        intro e he
        obtain ⟨hq, -, hfirst⟩ | ⟨hne, hfirst⟩ | ⟨hno, hfound, -⟩ := hcases
        · obtain rfl | he := mem_setList he
          · exact hpne
          obtain rfl | he := mem_setList he
          · rw [hfirst]
            exact hhead hq
          · exact h.heads e he
        · obtain rfl | he := mem_setList he
          · exact hpne
          obtain rfl | he := mem_setList he
          · rw [hfirst]
            exact hne
          · exact h.heads e he
        · rw [hnum hfound, hnull hno, setList_setList] at he
          obtain rfl | he := mem_setList he
          · exact hpne
          · exact h.heads e he
    obtain ⟨hheads, hnonnull, hmapped, hpos⟩ := hmerged
    refine ⟨hheads, hnonnull, ?_, ?_, hout⟩
    · intro a x hx
      obtain ⟨sx, hsx, haddr⟩ := hmapped a x hx
      dsimp only
      by_cases hxp : x = p
      · rw [hxp, hsp₁] at hsx
        cases hsx
        rw [hxp, Function.update_self]
        exact ⟨_, rfl, haddr⟩
      · exact ⟨sx, (Function.update_of_ne hxp _ _).trans hsx, haddr⟩
    · intro x sx hsx
      dsimp only at hsx
      by_cases hxp : x = p
      · rw [hxp, Function.update_self] at hsx
        cases hsx
        exact hpos p sp₁ hsp₁
      · rw [Function.update_of_ne hxp] at hsx
        exact hpos x sx hsx

/-- Otherwise a key is left with a null pointer. -/
theorem PageRun.Rooted.leaves_null {ptr : Ptr} {rounds : ℕ} (h : s.Rooted)
    (hc : ¬ (PageCall.deallocate ptr numPages rounds).KeepsHeads s) :
    ∃ q s', pageStep s (.deallocate ptr numPages rounds) = some (q, s') ∧ ¬ s'.pc.Headed := by
  rw [PageCall.KeepsHeads] at hc
  push Not at hc
  obtain ⟨hvalid, p, sp, q, sq, hp, hsp, hq, hsq, hc⟩ := hc
  have hpq := h.ne_next (h.users _ hvalid) hp hq
  have hqne := h.nonnull _ q hq
  suffices hdone : ∃ pc', s.pc.deallocateSpan rounds ptr numPages = some pc' ∧
      (sq.numPages, null) ∈ pc'.freeSpans by
    obtain ⟨pc', hpc', hmem⟩ := hdone
    refine ⟨null, { s with pc := pc', out := s.out.erase (ptr, numPages) }, ?_, ?_⟩
    · have hv : (PageCall.deallocate ptr numPages rounds).Valid s := hvalid
      rw [pageStep, if_pos hv, hpc']
      rfl
    · exact fun hheaded => hheaded.heads _ hmem rfl
  rw [deallocateSpan_eq, hp]
  dsimp only
  rw [hq, Option.elim_some, mergeNext_eq, hsq, Option.bind_some, searchNext]
  by_cases hhead : getList sq.numPages s.pc.freeSpans = q
  · have hlast : sq.next = null := by
      by_contra hne
      obtain ⟨hnull, -⟩ := hc fun _ => hne
      exact hqne (hhead.symm.trans hnull)
    have hpos := h.pos p sp hsp
    rw [if_pos hhead, Option.bind_some]
    dsimp only
    rw [if_pos rfl, hsp, Option.map_some, Option.bind_some]
    dsimp only
    rw [Function.update_of_ne hpq, Function.update_self, Option.map_some]
    refine ⟨_, rfl, ?_⟩
    dsimp only
    rw [hlast]
    apply mem_setList_of_ne (mem_setList_self _ _ _)
    dsimp only
    omega
  · obtain ⟨hnull, hne⟩ := hc fun he => absurd he hhead
    rw [if_neg hhead, if_neg (not_not.mpr hnull), Option.bind_some]
    dsimp only
    rw [if_neg Bool.false_ne_true, Option.bind_some, hsp, Option.map_some]
    refine ⟨_, rfl, ?_⟩
    exact mem_setList_of_ne (mem_setList_self _ _ _) hne

end Steps

/-- In every run each key leads to a span behind every call exactly when every span is given back in
a state that keeps it so. -/
theorem pageCache_headed_iff (mem : ℕ → UInt8) (calls : List PageCall) :
    Whenever pageStep (fun _ _ _ s' => s'.pc.Headed) (PageRun.start mem) calls ↔
      Allowed pageStep (fun s c => c.KeepsHeads s) (PageRun.start mem) calls := by
  refine whenever_iff (J := PageRun.Rooted) ?_ ?_ (.start mem) calls
  · intro s c r s' h hc hr
    have h' : s'.Rooted := by
      cases c with
      | allocate numPages node map => exact h.allocate hr
      | deallocate ptr numPages rounds => exact h.deallocate hc hr
    exact ⟨headed_iff.mpr h'.heads, h'⟩
  · intro s c h hc
    cases c with
    | allocate numPages node map => exact absurd trivial hc
    | deallocate ptr numPages rounds => exact h.leaves_null hc

/-- A page is given back in front of two that are in use: `freeSpans_[2]` becomes a null pointer, and
the next request for two pages reads a span there. -/
theorem deallocateSpan_leaves_null : ∃ s,
    finish pageStep (PageRun.start fun _ => 0)
      [.allocate 1 1 4096, .allocate 2 2 8192, .deallocate 4096 1 0] = some s ∧
    ¬ s.pc.Headed ∧ s.pc.allocateSpan s.mem 2 3 16384 = none := by
  refine ⟨_, rfl, ?_, rfl⟩
  intro h
  exact h.heads (2, null) (by decide) rfl

end Cache
end KvStore
