import KvStore.Cache.Counts
import Mathlib.Logic.Relation

/-! As long as no class is used again after a refill from its central list, no block is in two
places, and the counts are right when every refill brings a block. -/
namespace KvStore
open Memory

namespace Cache

variable {T : Type} [DecidableEq T] {s s' : System T} {lists : Place T → List Block} {t : T}
  {x : Place T} {p r : ℕ}

namespace Orderly

omit [DecidableEq T] in
/-- The links from the head of a place lead to the blocks of the place. -/
theorem reached (h : Orderly s lists) (hhead : s.head x = some p) (hr : Reach s.mem p r) :
    ∃ b ∈ lists x, b.ptr = r :=
  List.mem_map.mp ((h.linked x p hhead).mem_of_reach hr)

omit [DecidableEq T] in
theorem listed (h : Orderly s lists) {i q : ℕ} (hq : s.Listed t i q) :
    ∃ b ∈ lists (.thread t i), b.ptr = q := by
  obtain ⟨ptrs, hchain, hq⟩ := hq
  rw [hchain.unique (h.linked (.thread t i) _ rfl)] at hq
  exact List.mem_map.mp hq

omit [DecidableEq T] in
/-- Blocks at different places, or different ones, are not linked through one word. -/
theorem words_apart (h : Orderly s lists) {y : Place T} {a b : Block} (ha : a ∈ lists x)
    (hb : b ∈ lists y) (hne : x ≠ y ∨ a ≠ b) :
    Apart ⟨a.ptr, wordBytes⟩ ⟨b.ptr, wordBytes⟩ :=
  (h.placed.separate.apart ha hb hne).words (h.placed.valid x a ha).2.2 (h.placed.valid y b hb).2.2

omit [DecidableEq T] in
theorem offLists (h : Orderly s lists) (hx : ∀ t i, x ≠ .thread t i) {b : Block}
    (hb : b ∈ lists x) : s.OffLists ⟨b.ptr, wordBytes⟩ := by
  intro t i q hq
  obtain ⟨a, ha, rfl⟩ := h.listed hq
  exact h.words_apart hb ha (.inl (hx t i))

omit [DecidableEq T] in
theorem listsApart (h : Orderly s lists) : s.ListsApart := by
  intro t i q t' i' q' hq hq' hne
  obtain ⟨a, ha, rfl⟩ := h.listed hq
  obtain ⟨b, hb, rfl⟩ := h.listed hq'
  refine h.words_apart ha hb ?_
  by_contra hsame
  push Not at hsame
  obtain ⟨hx, rfl⟩ := hsame
  cases hx
  exact hne rfl

omit [DecidableEq T] in
/-- New pages have nothing in common with the lists. -/
theorem offLists_fresh (h : Orderly s lists) {b : Block} (hb : ∀ r ∈ s.pages, Apart b r) :
    s.OffLists b := by
  intro t i q hq
  obtain ⟨a, ha, rfl⟩ := h.listed hq
  obtain ⟨r, hr, hin⟩ := h.inside_pages (x := .thread t i) (by simp) ha
  have hword : Inside ⟨a.ptr, wordBytes⟩ a :=
    ⟨Nat.le_refl _, Nat.add_le_add_left (h.placed.valid _ a ha).2.2 _⟩
  exact (hword.apart (hin.apart (hb r hr).symm)).symm

/-- No span is free, so the pages of a refill come from `mmap`. -/
theorem careful_fetch (h : Orderly s lists) {size node map : ℕ} (hpc : s.pc t = .fetch size)
    (hm : s.Fresh map (Caches.numPages (blockSize (getIndex size)) * pageSize))
    (hcall : s.callFetch t size node map = some s') (hgot : s'.pc t ≠ .fetched null size) :
    System.Careful s s' := by
  have hwaits := h.waits t
  rw [hpc] at hwaits
  obtain ⟨start, caches, hrange, -, -, hpc', -⟩ := System.callFetch_eq hcall
  have hstart : start ≠ null := by
    rintro rfl
    exact hgot (by rw [hpc', Function.update_self])
  have hmap : s.central.centralFreelist (getIndex size) = null → map ≠ null := by
    intro hempty
    obtain ⟨hne, -⟩ | ⟨-, -, hnull, -⟩ | ⟨-, hne, -⟩ :=
      fetchRange_cases (getIndex_lt hwaits.1) h.noSpans hrange
    · exact absurd hempty hne
    · exact absurd hnull hstart
    · exact hne
  have hoffer : ∀ {n p}, s.page.offer n map = some p → p = map := by
    intro n p hp
    rw [PageCache.offer, h.noSpans] at hp
    exact (Option.some.inj hp).symm
  refine .fetch hpc hm ?_ (fun hempty p hp => ?_) hcall
  · by_cases hempty : s.central.centralFreelist (getIndex size) = null
    · exact .inr fun p hp => hoffer hp ▸ hmap hempty
    · exact .inl hempty
  · rw [hoffer hp]
    obtain ⟨hlt, hnew⟩ := hm (hmap hempty)
    exact ⟨(Nat.le_add_right _ _).trans_lt hlt,
      h.offLists_fresh fun r hr => hnew r (List.mem_append_left _ hr)⟩

theorem careful_returned (h : Orderly s lists) {n start bytes index : ℕ} {t₀ now : ℤ}
    {arrange : List (ℕ × ℕ) → List (ℕ × ℕ)} (hpc : s.pc t = .returning start bytes index)
    (hok : Unspent s index) (ha : ∀ l, (arrange l).Perm l)
    (hcall : s.callReturn n t start bytes index t₀ now arrange = some s') :
    System.Careful s s' := by
  have hflight : s.head (.flight t) = some start := by
    rw [System.head, hpc]
    rfl
  have hcentral : s.head (.central index) = some (s.central.centralFreelist index) := if_neg hok
  have htouched : ∀ r, s.Touched start index r → ∃ x, ∃ b ∈ lists x, b.ptr = r := by
    rintro r (hr | hr)
    · exact ⟨_, h.reached hflight hr⟩
    · exact ⟨_, h.reached hcentral hr⟩
  refine .returned hpc ha (fun r hr => ?_) (fun _ => ⟨fun r hr => ?_, fun r r' hr hr' hne => ?_⟩) hcall
  · obtain ⟨b, hb, rfl⟩ := h.reached hflight hr
    exact h.offLists (by simp) hb
  · obtain ⟨b, hb, rfl⟩ := h.reached hcentral hr
    exact h.offLists (by simp) hb
  · obtain ⟨x, a, ha, rfl⟩ := htouched r hr
    obtain ⟨y, b, hb, rfl⟩ := htouched r' hr'
    exact h.words_apart ha hb (.inr fun he => hne (congrArg Block.ptr he))

/-- A step that leaves no thread with an empty refill is careful. -/
theorem careful (h : Orderly s lists) {label : Option (Ptr × ℕ)}
    (hs : System.Step Unspent s label s') (hgot : ∀ t size, s'.pc t ≠ .fetched null size) :
    System.Careful s s' := by
  cases hs with
  | allocate hpc hr hcall => exact .allocate hpc hr hcall
  | miss hpc hcall => exact .miss hpc hcall
  | fetch hpc _ hm hcall => exact h.careful_fetch hpc hm hcall (hgot _ _)
  | fetched hpc hcall => exact .fetched hpc hcall
  | deallocate hpc hp =>
    refine .deallocate hpc hp (fun _ => ?_) fun _ => h.listsApart
    have hmem := List.mem_map_of_mem (f := extent) hp
    rw [← h.out] at hmem
    exact h.offLists (by simp) hmem
  | returned hpc hok ha hcall => exact h.careful_returned hpc hok ha hcall
  | write hw =>
    refine .write hw fun t i q hq => ?_
    obtain ⟨b, hb, rfl⟩ := h.listed hq
    exact h.load_of_writes hw (by simp) hb

end Orderly

/-- A step before a class is used again after a refill from its central list. It leaves no thread
with an empty refill. -/
def Provides (s s' : System T) : Prop :=
  (∃ label, System.Step Unspent s label s') ∧ ∀ t size, s'.pc t ≠ .fetched null size

/-- Such a run meets the condition under which the counts are right. -/
theorem careful_of_provides {mem : ℕ → UInt8} {now : ℕ → ℤ}
    (h : Relation.ReflTransGen Provides (System.start mem now) s) : System.CarefulRun s := by
  suffices hboth : System.CarefulRun s ∧ ∃ lists, Orderly s lists from hboth.1
  induction h with
  | refl => exact ⟨.start mem now, _, Orderly.start mem now⟩
  | tail _ hs ih =>
    obtain ⟨hrun, lists, horder⟩ := ih
    obtain ⟨⟨label, hstep⟩, hgot⟩ := hs
    exact ⟨hrun.step (horder.careful hstep hgot), (horder.step hstep).1⟩

end Cache
end KvStore
