import KvStore.Cache.Shared

/-! Which blocks `ThreadCache::allocate` returns. A refill that finds blocks on the central list
takes them without removing them there, so a class may be refilled in this way once; until it
would be again, no block is handed out twice. -/
namespace KvStore
open Memory

namespace Cache

variable {T : Type} [DecidableEq T] {s : System T} {lists : Place T → List Block}

omit [DecidableEq T] in
theorem Orderly.start (mem : ℕ → UInt8) (now : ℕ → ℤ) :
    Orderly (System.start mem now : System T) fun _ => [] := by
  refine ⟨⟨⟨fun _ => List.Pairwise.nil, by simp⟩, by simp, by simp, by simp, by simp,
    fun i _ _ _ => ⟨⟨0, 0⟩, by simp⟩, ?_⟩, rfl, fun x p hp => ?_, by simp, fun _ => trivial, rfl⟩
  · rintro r ⟨k, hk, -⟩
    exact absurd hk (Nat.not_lt_zero k)
  · cases x <;> cases hp <;> rfl

/-- The central cache is called for a class only until a refill has found its list not empty. -/
def Unspent (s : System T) (index : ℕ) : Prop := index ∉ s.spent

/-- Every step keeps the caches in order, and a call of `allocate` that it ends returns a block
apart from all outstanding ones. -/
theorem Orderly.step (h : Orderly s lists) {s' : System T} {label : Option (Ptr × ℕ)}
    (hs : System.Step Unspent s label s') :
    (∃ lists', Orderly s' lists') ∧
    ∀ b, label = some b → b.1 ≠ null → FromOut s b := by
  cases hs with
  | allocate hpc hr hcall =>
    obtain ⟨horder, hfrom⟩ := h.allocate hpc (fun _ _ => hr) hcall
    refine ⟨horder, fun b hb hne => ?_⟩
    cases hb
    exact hfrom _ rfl hne
  | miss hpc hcall =>
    exact ⟨(h.allocate hpc (fun q hq => by cases hq) hcall).1, fun b hb => by cases hb⟩
  | fetch hpc hok hm hcall =>
    exact ⟨h.callFetch hpc hok hm hcall, fun b hb => by cases hb⟩
  | fetched hpc hcall =>
    obtain ⟨horder, hfrom⟩ := h.finishFetch hpc hcall
    refine ⟨horder, fun b hb hne => ?_⟩
    cases hb
    exact hfrom hne
  | deallocate hpc hp => exact ⟨h.deallocate hpc hp, fun b hb => by cases hb⟩
  | returned hpc hok ha hcall =>
    exact ⟨h.callReturn hpc hok ha hcall, fun b hb => by cases hb⟩
  | write hw => exact ⟨⟨lists, h.write hw⟩, fun b hb => by cases hb⟩

theorem System.Run.orderly (hrun : System.Run Unspent s) : ∃ lists, Orderly s lists := by
  induction hrun with
  | start mem now => exact ⟨_, Orderly.start mem now⟩
  | step _ hs ih =>
    obtain ⟨lists, h⟩ := ih
    exact (h.step hs).1

/-- As long as no class is used again after a refill from its central list, the block that
`allocate` returns is not outstanding and overlaps no outstanding block. -/
theorem unspent_run_exclusive (hrun : System.Run Unspent s) {s' : System T} {b : Ptr × ℕ}
    (hs : System.Step Unspent s (some b) s') (hb : b.1 ≠ null) :
    ∀ c ∈ s.out, c.1 ≠ b.1 ∧ Apart (extent b) (extent c) := by
  obtain ⟨lists, h⟩ := hrun.orderly
  exact (h.step hs).2 b rfl hb

section TwoThreads

/-- Two threads at the start. -/
def twoThreads : System Bool := .start (fun _ => 0) fun _ => 0

/-- A thread asks for half a span, finds its list empty and calls the central cache. -/
def refilled (s : System Bool) (t : Bool) (map : Ptr) : System Bool :=
  ((s.allocate t 16384 null).2.callFetch t 16384 8 map).getD s

/-- The end of that request. -/
def served (s : System Bool) (t : Bool) (start : Ptr) : System Bool :=
  ((s.finishFetch 2 t start 16384).map (·.2)).getD s

theorem run_refilled {ok : System Bool → ℕ → Prop} {s : System Bool} {t : Bool} {map : ℕ}
    (hrun : System.Run ok s) (hpc : s.pc t = .idle)
    (hmiss : (s.allocate t 16384 null).1 = none)
    (hpc' : (s.allocate t 16384 null).2.pc t = .fetch 16384)
    (hok : ok (s.allocate t 16384 null).2 (getIndex 16384))
    (hmap : (s.allocate t 16384 null).2.Fresh map
      (Caches.numPages (blockSize (getIndex 16384)) * pageSize))
    (hfetch : (s.allocate t 16384 null).2.callFetch t 16384 8 map = some (refilled s t map)) :
    System.Run ok (refilled s t map) :=
  (hrun.step (.miss hpc (Prod.ext hmiss rfl))).step (.fetch hpc' hok hmap hfetch)

theorem step_served {ok : System Bool → ℕ → Prop} {s : System Bool} {t : Bool} {start : ℕ}
    (hpc : s.pc t = .fetched start 16384)
    (hfin : s.finishFetch 2 t start 16384 = some (start, served s t start)) :
    System.Step ok s (some (start, 16384)) (served s t start) := .fetched hpc hfin

def firstServed : System Bool := served (refilled twoThreads false 65536) false 65536

def secondServed : System Bool := served (refilled firstServed false null) false 81920

theorem run_first {ok : System Bool → ℕ → Prop}
    (hok : ok (twoThreads.allocate false 16384 null).2 (getIndex 16384)) :
    System.Run ok (refilled twoThreads false 65536) :=
  run_refilled (.start _ _) rfl rfl rfl hok (fun _ => ⟨by decide, by decide⟩) rfl

/-- The refill of the second thread gets the other half of the span, while the first thread has
its own. -/
theorem unspent_run_exclusive_two : System.Run Unspent (refilled firstServed true null) ∧
    (refilled firstServed true null).out = [(65536, 16384)] ∧
    System.Step Unspent (refilled firstServed true null) (some (81920, 16384))
      (served (refilled firstServed true null) true 81920) ∧
    ∀ c ∈ (refilled firstServed true null).out, c.1 ≠ 81920 ∧
      Apart (extent (81920, 16384)) (extent c) := by
  have hrun₁ : System.Run Unspent firstServed :=
    (run_first List.not_mem_nil).step (step_served rfl rfl)
  have hrun₂ : System.Run Unspent (refilled firstServed true null) :=
    run_refilled hrun₁ rfl rfl rfl List.not_mem_nil (fun hne => absurd rfl hne) rfl
  have hs : System.Step Unspent (refilled firstServed true null) (some (81920, 16384))
      (served (refilled firstServed true null) true 81920) := step_served rfl rfl
  exact ⟨hrun₂, rfl, hs, unspent_run_exclusive hrun₂ hs (by decide)⟩

/-- The second refill of the first thread takes the only block left on the central list, which
stays there, and the refill of the second thread gets the same block. -/
theorem allocate_returns_outstanding : ∃ s s' : System Bool, System.Run (fun _ _ => True) s ∧
    System.Step (fun _ _ => True) s (some (81920, 16384)) s' ∧ (81920, 16384) ∈ s.out := by
  have hrun₁ : System.Run (fun _ _ => True) firstServed :=
    (run_first trivial).step (step_served rfl rfl)
  have hrun₂ : System.Run (fun _ _ => True) (refilled firstServed false null) :=
    run_refilled hrun₁ rfl rfl rfl trivial (fun hne => absurd rfl hne) rfl
  have hrun₃ : System.Run (fun _ _ => True) secondServed := hrun₂.step (step_served rfl rfl)
  have hrun₄ : System.Run (fun _ _ => True) (refilled secondServed true null) :=
    run_refilled hrun₃ rfl rfl rfl trivial (fun hne => absurd rfl hne) rfl
  exact ⟨refilled secondServed true null, served (refilled secondServed true null) true 81920,
    hrun₄, step_served rfl rfl, by decide⟩

end TwoThreads

end Cache
end KvStore
