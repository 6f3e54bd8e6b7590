import KvStore.Cache.Conserve

/-! When a span that is given back to the page cache is merged with the free one behind it. A span
that `allocateSpan` splits off is in no entry of `spanMap_` until it is handed out. -/
namespace KvStore
open Memory Linked Guarded

namespace Cache
open PageCache

/-- A span with this first page and this many pages is on a free list. -/
def PageRun.Free (s : PageRun) (x : Ptr × ℕ) : Prop :=
  ∃ k p sp, s.Listed k p ∧ s.pc.spans p = some sp ∧ sp.pages = x

/-- When the span behind the one that is given back is free, no free span is behind the free span
that starts there after the call. -/
def PageCall.Coalesces (s s' : PageRun) : PageCall → Prop
  | allocate _ _ _ => True
  | deallocate ptr numPages _ => ∀ m, s.Free (ptr + numPages * pageSize, m) →
    (∃ m', s'.Free (ptr, m')) ∧
      ∀ m' m'', s'.Free (ptr, m') → ¬ s'.Free (ptr + m' * pageSize, m'')

/-- When the span behind the one that is given back is free, `spanMap_` leads to it, and the one
behind it is not free. -/
def PageCall.FindsNext (s : PageRun) : PageCall → Prop
  | allocate _ _ _ => True
  | deallocate ptr numPages _ => ∀ m, s.Free (ptr + numPages * pageSize, m) →
    (∃ q, s.pc.spanMap (ptr + numPages * pageSize) = some q) ∧
      ∀ m', ¬ s.Free (ptr + (numPages + m) * pageSize, m')

section Steps

variable {s s' : PageRun} {out : List (Ptr × ℕ)} {lists : ℕ → List Ptr} {R : ℕ → Prop}
  {x : Ptr × ℕ} {ptr q : Ptr} {numPages rounds m m' : ℕ}

/-- A span ends behind its first page. -/
theorem lt_end (hm : 0 < m) : ptr < ptr + m * pageSize :=
  Nat.lt_add_of_pos_right (Nat.mul_pos hm (by decide))

/-- A span that is not handed out is free. -/
theorem PageCache.Tidy.free_iff (h : s.pc.Tidy s.out lists R) :
    s.Free x ↔ s.pc.Has x ∧ x ∉ s.out := by
  constructor
  · rintro ⟨k, p, sp, hp, hsp, rfl⟩
    refine ⟨⟨p, sp, hsp, rfl⟩, ?_⟩
    intro hout
    exact (h.user hout hsp).2 k ((h.listed_iff k p).mp hp)
  · rintro ⟨⟨p, sp, hsp, rfl⟩, hout⟩
    have hp := (h.placed p sp hsp).resolve_right hout
    exact ⟨sp.numPages, p, sp, (h.listed_iff _ p).mpr hp, hsp, rfl⟩

theorem PageCache.Tidy.eq_of_has (h : s.pc.Tidy s.out lists R) (hm : s.pc.Has (ptr, m))
    (hm' : s.pc.Has (ptr, m')) : m = m' := by
  obtain ⟨p, sp, hsp, hpages⟩ := hm
  obtain ⟨p', sp', hsp', hpages'⟩ := hm'
  obtain rfl := h.eq_of_pageAddr hsp hsp'
    ((congrArg Prod.fst hpages).trans (congrArg Prod.fst hpages').symm)
  rw [hsp] at hsp'
  cases hsp'
  exact congrArg Prod.snd (hpages.symm.trans hpages')

theorem PageCache.Tidy.has_pos (h : s.pc.Tidy s.out lists R) (hx : s.pc.Has x) : 0 < x.2 := by
  obtain ⟨p, sp, hsp, rfl⟩ := hx
  exact h.pos hsp

theorem PageCache.Tidy.has_of_mem (h : s.pc.Tidy s.out lists R) (hx : x ∈ s.out) :
    s.pc.Has x := by
  obtain ⟨p, sp, -, hsp, hpages, -⟩ := h.users x hx
  exact ⟨p, sp, hsp, hpages⟩

/-- The free spans behind a call that gives one back: the one behind it has become part of it, or
it is free beside those before, and then `spanMap_` does not lead to a free one behind it. -/
theorem PageRun.Tidy.deallocate_free (h : s.Tidy)
    (hr : pageStep s (.deallocate ptr numPages rounds) = some (q, s')) :
    (∃ m, s.Free (ptr + numPages * pageSize, m) ∧
      (∃ p, s.pc.spanMap (ptr + numPages * pageSize) = some p) ∧
      ∀ x, s'.Free x ↔ x = (ptr, numPages + m) ∨
        s.Free x ∧ x ≠ (ptr + numPages * pageSize, m)) ∨
    (∀ m p, s.Free (ptr + numPages * pageSize, m) →
      s.pc.spanMap (ptr + numPages * pageSize) ≠ some p) ∧
      ∀ x, s'.Free x ↔ x = (ptr, numPages) ∨ s.Free x := by
  obtain ⟨⟨lists, ht⟩, -⟩ := h
  have hvalid : (ptr, numPages) ∈ s.out := pageStep_valid hr
  rw [pageStep, if_pos (pageStep_valid hr)] at hr
  obtain ⟨pc, hpc, hr⟩ := Option.map_eq_some_iff.mp hr
  cases hr
  have hperm : ((ptr, numPages) :: s.out.erase (ptr, numPages)).Perm s.out :=
    (List.perm_cons_erase hvalid).symm
  obtain ⟨lists', ht', hjoined⟩ := (ht.perm hperm).deallocateSpan hpc
  have hout : ∀ x, x ∉ s.out.erase (ptr, numPages) ↔ x = (ptr, numPages) ∨ x ∉ s.out := by
    intro x
    rw [ht.nodup.mem_erase_iff]
    tauto
  have hhas := ht.has_of_mem hvalid
  have hfree' : ∀ x, PageRun.Free { s with pc := pc, out := s.out.erase (ptr, numPages) } x ↔
      pc.Has x ∧ (x = (ptr, numPages) ∨ x ∉ s.out) := by
    intro x
    rw [← hout]
    exact PageCache.Tidy.free_iff ht'
  cases hjoined with
  | @next p sq hq hsq hmem hjoin =>
    left
    obtain ⟨sq', hsq', haddr⟩ := ht.mapped _ p hq
    rw [hsq] at hsq'
    cases hsq'
    have hpages : sq.pages = (ptr + numPages * pageSize, sq.numPages) := by rw [Span.pages, haddr]
    refine ⟨sq.numPages, ⟨_, p, sq, (ht.listed_iff _ p).mpr hmem, hsq, hpages⟩, ⟨p, hq⟩, ?_⟩
    intro x
    have hlong : (ptr, numPages + sq.numPages) ∉ s.out := by
      intro ho
      have hsame := ht.eq_of_has hhas (ht.has_of_mem ho)
      have hpos := ht.pos hsq
      omega
    rw [hfree', hjoin, ht.free_iff, hpages]
    constructor
    · rintro ⟨rfl | ⟨hx, hne, hnext⟩, hor⟩
      · exact .inl rfl
      · exact .inr ⟨⟨hx, hor.resolve_left hne⟩, hnext⟩
    · rintro (rfl | ⟨⟨hx, hno⟩, hnext⟩)
      · exact ⟨.inl rfl, .inr hlong⟩
      · refine ⟨.inr ⟨hx, ?_, hnext⟩, .inr hno⟩
        rintro rfl
        exact hno hvalid
  | alone hno hsame =>
    right
    refine ⟨?_, ?_⟩
    · rintro m p ⟨k, p', sp', hp', hsp', hpages⟩ hp
      obtain ⟨sq, hsq, haddr⟩ := ht.mapped _ p hp
      obtain rfl := ht.eq_of_pageAddr hsq hsp' (haddr.trans (congrArg Prod.fst hpages).symm)
      have hk := (ht.listed_iff k p).mp hp'
      rw [← ht.numPages_of_mem hk hsq] at hk
      exact hno p sq hp hsq hk
    · intro x
      rw [hfree', hsame, ht.free_iff]
      constructor
      · rintro ⟨hx, rfl | hno⟩
        · exact .inl rfl
        · exact .inr ⟨hx, hno⟩
      · rintro (rfl | ⟨hx, hno⟩)
        · exact ⟨hhas, .inl rfl⟩
        · exact ⟨hx, .inr hno⟩

/-- One call. -/
theorem PageRun.Tidy.coalesces_iff {c : PageCall} (h : s.Tidy) (hr : pageStep s c = some (q, s')) :
    c.Coalesces s s' ↔ c.FindsNext s := by
  cases c with
  | allocate numPages node map => exact Iff.rfl
  | deallocate ptr numPages rounds =>
    have hvalid : (ptr, numPages) ∈ s.out := pageStep_valid hr
    obtain ⟨lists, ht⟩ := h.cache
    have hhas := ht.has_of_mem hvalid
    obtain ⟨m, hm, hmap, hfree⟩ | ⟨hno, hfree⟩ := h.deallocate_free hr
    · have hpos : 0 < m := ht.has_pos (ht.free_iff.mp hm).1
      have hlong : s'.Free (ptr, numPages + m) := (hfree _).mpr (.inl rfl)
      -- the span that is given back starts where no span was free
      have hfirst : ∀ m', s'.Free (ptr, m') → m' = numPages + m := by
        intro m' hm'
        obtain he | ⟨hm', -⟩ := (hfree _).mp hm'
        · exact congrArg Prod.snd he
        · obtain ⟨hx, hx'⟩ := ht.free_iff.mp hm'
          obtain rfl := ht.eq_of_has hx hhas
          exact absurd hvalid hx'
      have hnext : ∀ m', s'.Free (ptr + (numPages + m) * pageSize, m') ↔
          s.Free (ptr + (numPages + m) * pageSize, m') := by
        intro m'
        rw [hfree]
        have hself : (ptr + (numPages + m) * pageSize, m') ≠ (ptr, numPages + m) :=
          fun he => (lt_end (Nat.add_pos_right numPages hpos)).ne' (congrArg Prod.fst he)
        have hother : (ptr + (numPages + m) * pageSize, m') ≠ (ptr + numPages * pageSize, m) := by
          intro he
          rw [Nat.add_mul, ← Nat.add_assoc] at he
          exact (lt_end hpos).ne' (congrArg Prod.fst he)
        exact ⟨fun hx => (hx.resolve_left hself).1, fun hx => .inr ⟨hx, hother⟩⟩
      constructor
      · intro hco m₁ hm₁
        obtain rfl := ht.eq_of_has (ht.free_iff.mp hm₁).1 (ht.free_iff.mp hm).1
        refine ⟨hmap, ?_⟩
        intro m' hm'
        exact (hco m₁ hm₁).2 _ m' hlong ((hnext m').mpr hm')
      · intro hfinds m₁ hm₁
        refine ⟨⟨_, hlong⟩, ?_⟩
        intro m' m'' hm' hm''
        rw [hfirst m' hm'] at hm''
        exact (hfinds m hm).2 m'' ((hnext m'').mp hm'')
    · constructor
      · intro hco m hm
        exact absurd ((hfree _).mpr (.inr hm)) ((hco m hm).2 numPages m ((hfree _).mpr (.inl rfl)))
      · intro hfinds m hm
        obtain ⟨⟨p, hp⟩, -⟩ := hfinds m hm
        exact absurd hp (hno m p hm)

end Steps

/-- In every run whose requests can be counted in bytes each span that is given back is merged as far
as free pages go on behind it exactly when `spanMap_` leads to the free span there and no other one
is behind that. -/
theorem deallocateSpan_coalesces_iff (mem : ℕ → UInt8) (calls : List PageCall)
    (hfits : ∀ c ∈ calls, c.Fits) :
    Whenever pageStep (fun s c _ s' => c.Coalesces s s') (PageRun.start mem) calls ↔
      Whenever pageStep (fun s c _ _ => c.FindsNext s) (PageRun.start mem) calls := by
  have hall : Allowed pageStep (fun _ c => c.Fits) (PageRun.start mem) calls :=
    .of_forall fun c hc _ => hfits c hc
  refine whenever_congr (J := PageRun.Tidy) ?_ ?_ (.start mem) hall
  · exact fun s c r s' h hc hr => h.step hc hr
  · exact fun s c r s' h _ hr => h.coalesces_iff hr

/-- A page is given back behind one that is in use, then that one. -/
theorem deallocateSpan_coalesces_two :
    Whenever pageStep (fun s c _ s' => c.Coalesces s s') (PageRun.start fun _ => 0)
      [.allocate 1 1 4096, .allocate 1 2 8192, .deallocate 8192 1 0, .deallocate 4096 1 0] := by
  refine (deallocateSpan_coalesces_iff (fun _ => 0)
    [.allocate 1 1 4096, .allocate 1 2 8192, .deallocate 8192 1 0, .deallocate 4096 1 0] ?_).mpr ?_
  · intro c hc
    simp only [List.mem_cons, List.not_mem_nil, or_false] at hc
    obtain rfl | rfl | rfl | rfl := hc
    · exact (by decide : 1 * pageSize < 2 ^ 64)
    · exact (by decide : 1 * pageSize < 2 ^ 64)
    · trivial
    · trivial
  · intro r s hr
    cases hr
    refine ⟨trivial, ?_⟩
    intro r s hr
    cases hr
    refine ⟨trivial, ?_⟩
    intro r s hr
    cases hr
    refine ⟨?_, ?_⟩
    · rintro m ⟨k, p, sp, -, hsp, hpages⟩
      simp only [PageRun.start, Function.update_apply] at hsp
      split_ifs at hsp
      · cases hsp
        cases hpages
      · cases hsp
        cases hpages
    intro r s hr
    cases hr
    refine ⟨?_, trivial⟩
    rintro m ⟨k, p, sp, -, hsp, hpages⟩
    refine ⟨⟨2, rfl⟩, ?_⟩
    rintro m' ⟨k', p', sp', -, hsp', hpages'⟩
    simp only [PageRun.start, Function.update_apply] at hsp hsp'
    split_ifs at hsp
    · cases hsp
      cases hpages
      split_ifs at hsp'
      · cases hsp'
        cases hpages'
      · cases hsp'
        cases hpages'
    · cases hsp
      cases hpages

/-- Of two free pages the first is handed out and given back: the second stays a free span of its
own behind it. -/
theorem deallocateSpan_leaves_rest : ∃ s s',
    finish pageStep (PageRun.start fun _ => 0)
      [.allocate 2 1 4096, .deallocate 4096 2 0, .allocate 1 2 0] = some s ∧
    pageStep s (.deallocate 4096 1 0) = some (null, s') ∧
    ¬ (PageCall.deallocate 4096 1 0).Coalesces s s' := by
  refine ⟨_, _, rfl, rfl, ?_⟩
  intro hco
  refine (hco 1 ?_).2 1 1 ?_ ?_
  · exact ⟨1, 2, _, ⟨[2], ⟨rfl, by decide, null, rfl, rfl⟩, by decide⟩, rfl, rfl⟩
  · exact ⟨1, 1, _, ⟨[1, 2], ⟨rfl, by decide, 2, rfl, rfl, by decide, null, rfl, rfl⟩, by decide⟩,
      rfl, rfl⟩
  · exact ⟨1, 2, _, ⟨[1, 2], ⟨rfl, by decide, 2, rfl, rfl, by decide, null, rfl, rfl⟩, by decide⟩,
      rfl, rfl⟩

end Cache
end KvStore
