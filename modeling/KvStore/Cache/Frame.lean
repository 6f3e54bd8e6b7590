import KvStore.Cache.Carve
import KvStore.Cache.Drop

/-! What a call of the central cache leaves alone. A return writes into blocks that it comes upon by
their links, and a refill into the pages that it cuts. -/
namespace KvStore
open Memory

namespace Cache
namespace Caches

variable {c c' : Caches} {S : ℕ → Prop} {x : SpanTracker} {mem mem' : ℕ → UInt8}
  {n i p v size node map start bytes : ℕ} {t₀ now : ℤ} {arrange : List (ℕ × ℕ) → List (ℕ × ℕ)}

/-- The blocks of the set lie apart, and their links lead to blocks of the set. -/
structure Closed (mem : ℕ → UInt8) (S : ℕ → Prop) : Prop where
  next : ∀ r, S r → load mem r ≠ null → S (load mem r)
  apart : ∀ r r', S r → S r' → r ≠ r' → WordsApart r r'

/-- Only links of blocks of the set differ. -/
def Within (S : ℕ → Prop) (mem mem' : ℕ → UInt8) : Prop :=
  ∀ q, (∀ r, S r → WordsApart q r) → load mem' q = load mem q

theorem Within.trans {mem'' : ℕ → UInt8} (h : Within S mem mem') (h' : Within S mem' mem'') :
    Within S mem mem'' := fun q hq => (h' q hq).trans (h q hq)

theorem within_store (hp : S p) (v : ℕ) : Within S mem (store mem p v) :=
  fun _ hq => load_store_of_apart (hq p hp)

theorem Closed.store (h : Closed mem S) (hp : S p) (hlt : v < 256 ^ wordBytes)
    (hv : v ≠ null → S v) : Closed (store mem p v) S := by
  refine ⟨fun r hr hne => ?_, h.apart⟩
  by_cases hrp : r = p
  · rw [hrp, load_store hlt] at hne ⊢
    exact hv hne
  · rw [load_store_of_apart (h.apart r p hr hp hrp)] at hne ⊢
    exact h.next r hr hne

/-- The loop that takes blocks off a list stays in a closed set. -/
theorem Closed.dropSpan {current prev newhead head : ℕ} (h : Closed mem S)
    (hcurrent : current ≠ null → S current) (hprev : prev ≠ null → S prev)
    (hnew : newhead ≠ null → S newhead) (hlt : newhead < 256 ^ wordBytes)
    (hr : dropSpan x n mem current prev newhead = some (mem', head)) :
    Closed mem' S ∧ Within S mem mem' ∧ (head ≠ null → S head) ∧ head < 256 ^ wordBytes := by
  induction n generalizing mem current prev newhead with
  | zero => cases hr
  | succ n ih =>
    rw [Caches.dropSpan] at hr
    by_cases hnull : current = null
    · rw [if_pos hnull] at hr
      cases hr
      exact ⟨h, fun _ _ => rfl, hnew, hlt⟩
    rw [if_neg hnull] at hr
    have hin := hcurrent hnull
    have hnext := h.next current hin
    have hnextlt := load_lt mem current
    dsimp only at hr
    by_cases hc : CentralCache.covers x current = true
    · rw [if_pos hc] at hr
      by_cases hp : prev ≠ null
      · rw [if_pos hp] at hr
        obtain ⟨hclosed, hwithin, hhead⟩ :=
          ih (h.store (hprev hp) hnextlt hnext) hnext hprev hnew hlt hr
        exact ⟨hclosed, (within_store (hprev hp) _).trans hwithin, hhead⟩
      · rw [if_neg hp] at hr
        exact ih h hnext hprev hnext hnextlt hr
    · rw [if_neg hc] at hr
      exact ih h hnext (fun _ => hin) hnew hlt hr

/-- The list of the class runs through a closed set. -/
structure RunsIn (S : ℕ → Prop) (i : ℕ) (c : Caches) : Prop where
  closed : Closed c.mem S
  head : c.central.centralFreelist i ≠ null → S (c.central.centralFreelist i)
  lt : c.central.centralFreelist i < 256 ^ wordBytes

/-- The lists of the other classes begin where they did. -/
def SameHeads (i : ℕ) (c c' : Caches) : Prop :=
  ∀ j, j ≠ i → c'.central.centralFreelist j = c.central.centralFreelist j

theorem RunsIn.updateSpanFreeCount {k m : ℕ} (h : RunsIn S i c)
    (hr : c.updateSpanFreeCount n k m i = some c') :
    RunsIn S i c' ∧ Within S c.mem c'.mem ∧ SameHeads i c c' := by
  unfold Caches.updateSpanFreeCount at hr
  dsimp only at hr
  split_ifs at hr
  · obtain ⟨⟨mem', head⟩, hdrop, hr⟩ := Option.bind_eq_some_iff.mp hr
    obtain ⟨page, -, hr⟩ := Option.bind_eq_some_iff.mp hr
    cases hr
    have hnull : ∀ {p : ℕ}, (null : ℕ) ≠ null → S p := fun hne => absurd rfl hne
    obtain ⟨hclosed, hwithin, hhead, hlt⟩ := h.closed.dropSpan h.head hnull hnull
      (Nat.pow_pos (by decide)) hdrop
    refine ⟨⟨hclosed, ?_, ?_⟩, hwithin, fun j hj => Function.update_of_ne hj _ _⟩
    · simpa [CentralCache.setFreelist] using hhead
    · simpa [CentralCache.setFreelist] using hlt
  · cases hr
    exact ⟨h, fun _ _ => rfl, fun _ _ => rfl⟩

theorem RunsIn.updateSpans {counts : List (ℕ × ℕ)} (h : RunsIn S i c)
    (hr : updateSpans n i counts c = some c') :
    RunsIn S i c' ∧ Within S c.mem c'.mem ∧ SameHeads i c c' := by
  induction counts generalizing c with
  | nil =>
    cases hr
    exact ⟨h, fun _ _ => rfl, fun _ _ => rfl⟩
  | cons e counts ih =>
    obtain ⟨c₁, hone, hr⟩ := Option.bind_eq_some_iff.mp hr
    obtain ⟨h₁, hwithin₁, hheads₁⟩ := h.updateSpanFreeCount hone
    obtain ⟨h', hwithin, hheads⟩ := ih h₁ hr
    exact ⟨h', hwithin₁.trans hwithin, fun j hj => (hheads j hj).trans (hheads₁ j hj)⟩

theorem walkEnd_reach (hp : p ≠ null) (k : ℕ) : Reach mem p (walkEnd mem k p) := by
  suffices hfrom : ∀ q, Reach mem p q → Reach mem p (walkEnd mem k q) from hfrom p (.head hp)
  induction k with
  | zero => exact fun q hq => hq
  | succ k ih =>
    intro q hq
    rw [walkEnd]
    split_ifs with hne
    · exact ih _ (hq.next hne)
    · exact hq

/-- The blocks that a return comes upon: those that it brings, and those of the list of the class. -/
def Touched (c : Caches) (start i r : ℕ) : Prop :=
  Reach c.mem start r ∨ Reach c.mem (c.central.centralFreelist i) r

/-- A return without a delayed one writes into the blocks that it brings. -/
theorem returnRange_frame (hlt : ∀ j, c.central.centralFreelist j < 256 ^ wordBytes)
    (hstart : start < 256 ^ wordBytes)
    (hapart : c.Delays start i t₀ → ∀ r r', c.Touched start i r → c.Touched start i r' → r ≠ r' →
      WordsApart r r')
    (hr : c.returnRange n start bytes i t₀ now arrange = some c') :
    (∀ q, (∀ r, Reach c.mem start r → WordsApart q r) →
      (c.Delays start i t₀ → ∀ r, Reach c.mem (c.central.centralFreelist i) r → WordsApart q r) →
      load c'.mem q = load c.mem q) ∧
    ∀ j, c'.central.centralFreelist j < 256 ^ wordBytes := by
  rw [returnRange_eq] at hr
  by_cases hnone : start = null ∨ freeListSize ≤ i
  · rw [if_pos hnone] at hr
    cases hr
    exact ⟨fun _ _ _ => rfl, hlt⟩
  rw [if_neg hnone] at hr
  have hne : start ≠ null := fun hnull => hnone (.inl hnull)
  have hlast : Reach c.mem start (walkEnd c.mem (bytes / blockSize i - 1) start) :=
    walkEnd_reach hne _
  have hheads : SameHeads i c (c.pushed start bytes i) := fun j hj => Function.update_of_ne hj _ _
  have hhead := pushed_centralFreelist c start bytes i
  split_ifs at hr with hdelay
  · have hdelays : c.Delays start i t₀ := ⟨hnone, hdelay⟩
    have hclosed : Closed c.mem (c.Touched start i) := by
      refine ⟨fun r hr hne => ?_, hapart hdelays⟩
      exact hr.imp (fun hr => hr.next hne) (fun hr => hr.next hne)
    have hfirst : ((c.pushed start bytes i).timed i now).central.centralFreelist i = start := hhead
    have hpushed : RunsIn (c.Touched start i) i ((c.pushed start bytes i).timed i now) := by
      refine ⟨?_, fun _ => ?_, ?_⟩
      · exact hclosed.store (.inl hlast) (hlt i) fun hne => .inr (.head hne)
      · rw [hfirst]
        exact .inl (.head hne)
      · rw [hfirst]
        exact hstart
    rw [performDelayReturn_eq] at hr
    obtain ⟨counts, -, hr⟩ := Option.bind_eq_some_iff.mp hr
    obtain ⟨h', hwithin, hsame⟩ := hpushed.updateSpans hr
    refine ⟨fun q hflight hcentral => ?_, fun j => ?_⟩
    · have hq : ∀ r, c.Touched start i r → WordsApart q r := by
        rintro r (hr | hr)
        · exact hflight r hr
        · exact hcentral hdelays r hr
      exact (hwithin q hq).trans (load_store_of_apart (hflight _ hlast))
    · by_cases hj : j = i
      · rw [hj]
        exact h'.lt
      · rw [hsame j hj]
        exact (hheads j hj).symm ▸ hlt j
  · cases hr
    refine ⟨fun q hflight _ => load_store_of_apart (hflight _ hlast), fun j => ?_⟩
    by_cases hj : j = i
    · rw [hj, hhead]
      exact hstart
    · rw [hheads j hj]
      exact hlt j

end Caches

/-- What `allocateSpan` returns when it comes back. -/
def PageCache.offer (pc : PageCache) (numPages : ℕ) (map : Ptr) : Option Ptr :=
  match pc.freeSpans.find? (numPages ≤ ·.1) with
  | some (_, p) => (pc.spans p).map Span.pageAddr
  | none => some map

theorem PageCache.allocateSpan_offer {pc pc' : PageCache} {mem mem' : ℕ → UInt8}
    {numPages node map p : ℕ} (h : pc.allocateSpan mem numPages node map = some (p, pc', mem')) :
    pc.offer numPages map = some p ∧
      (mem' = mem ∨ p ≠ null ∧ mem' = zeroed mem p (systemSize numPages)) := by
  unfold allocateSpan at h
  unfold offer
  cases hfind : pc.freeSpans.find? (numPages ≤ ·.1) with
  | some e =>
    obtain ⟨k, q⟩ := e
    rw [hfind] at h
    obtain ⟨⟨r, pc₁⟩, htake, h⟩ := Option.bind_eq_some_iff.mp h
    cases h
    obtain ⟨sp, hsp, htake⟩ := Option.bind_eq_some_iff.mp htake
    refine ⟨?_, .inl rfl⟩
    dsimp only at htake ⊢
    rw [hsp]
    by_cases hlt : numPages < sp.numPages
    · rw [if_pos hlt] at htake
      cases htake
      rfl
    · rw [if_neg hlt] at htake
      cases htake
      rfl
  | none =>
    rw [hfind] at h
    dsimp only at h ⊢
    split_ifs at h with hnull
    · cases h
      exact ⟨by rw [hnull], .inl rfl⟩
    · cases h
      exact ⟨rfl, .inr ⟨hnull, rfl⟩⟩

theorem PageCache.allocateSpan_of_offer {pc : PageCache} {numPages map p : ℕ}
    (h : pc.offer numPages map = some p) (mem : ℕ → UInt8) (node : ℕ) :
    ∃ pc' mem', pc.allocateSpan mem numPages node map = some (p, pc', mem') := by
  unfold offer at h
  unfold allocateSpan
  cases hfind : pc.freeSpans.find? (numPages ≤ ·.1) with
  | some e =>
    obtain ⟨k, q⟩ := e
    rw [hfind] at h
    obtain ⟨sp, hsp, rfl⟩ := Option.map_eq_some_iff.mp h
    dsimp only
    rw [takeSpan, hsp]
    dsimp only [Option.bind_eq_bind, Option.bind_some]
    by_cases hlt : numPages < sp.numPages
    · rw [if_pos hlt]
      exact ⟨_, _, rfl⟩
    · rw [if_neg hlt]
      exact ⟨_, _, rfl⟩
  | none =>
    rw [hfind] at h
    cases h
    dsimp only
    split_ifs with hnull
    · exact ⟨_, _, by rw [hnull]⟩
    · exact ⟨_, _, rfl⟩

namespace Caches

/-- A refill gives the list of the class, or it writes into the pages that it cuts. -/
theorem fetchRange_frame {c c' : Caches} {i node map p : ℕ} (hi : i < freeListSize)
    (hlt : ∀ j, c.central.centralFreelist j < 256 ^ wordBytes)
    (h : c.fetchRange i node map = some (p, c')) :
    (c.central.centralFreelist i ≠ null ∧ p = c.central.centralFreelist i ∧ c' = c) ∨
    c.central.centralFreelist i = null ∧
      c.page.offer (numPages (blockSize i)) map = some p ∧
      (∀ q, Apart (span i p) ⟨q, wordBytes⟩ → load c'.mem q = load c.mem q) ∧
      ∀ j, c'.central.centralFreelist j < 256 ^ wordBytes := by
  rw [fetchRange, if_neg (Nat.not_le.mpr hi)] at h
  by_cases hempty : c.central.centralFreelist i = null
  swap
  · rw [if_pos hempty] at h
    cases h
    exact .inl ⟨hempty, rfl, rfl⟩
  rw [if_neg (not_not.mpr hempty)] at h
  obtain ⟨⟨p₁, c₁⟩, hfetch, h⟩ := Option.bind_eq_some_iff.mp h
  rw [fetchFromPageCache_eq, askedPages_eq] at hfetch
  obtain ⟨⟨q, page, mem⟩, halloc, hfetch⟩ := Option.map_eq_some_iff.mp hfetch
  cases hfetch
  obtain ⟨hoffer, hmem⟩ := PageCache.allocateSpan_offer halloc
  rw [systemSize_numPages hi] at hmem
  have hzero : ∀ a, ¬ (span i q).Has a → mem a = c.mem a := by
    intro a ha
    obtain rfl | ⟨-, rfl⟩ := hmem
    · rfl
    · exact zeroed_of_not_has ha
  have hload : ∀ mem' : ℕ → UInt8, (∀ a, ¬ (span i q).Has a → mem' a = mem a) →
      ∀ r, Apart (span i q) ⟨r, wordBytes⟩ → load mem' r = load c.mem r := by
    intro mem' hmem' r hr
    refine load_congr fun a ha => ?_
    have hout := hr.symm.not_has ha
    rw [hmem' a hout, hzero a hout]
  dsimp only at h
  right
  by_cases hq : q = null
  · rw [if_pos hq] at h
    subst hq
    cases h
    exact ⟨hempty, hoffer, hload mem fun _ _ => rfl, hlt⟩
  rw [if_neg hq] at h
  by_cases hn : 1 < blockNum i
  · rw [if_pos hn] at h
    cases h
    refine ⟨hempty, hoffer, hload _ fun a ha => carve_of_not_has hn ha, fun j => ?_⟩
    rw [carve_centralFreelist, Function.update_apply]
    split_ifs
    · exact load_lt _ _
    · exact hlt j
  · rw [if_neg hn] at h
    obtain ⟨c₂, hsingle, h⟩ := Option.bind_eq_some_iff.mp h
    cases h
    obtain ⟨hmem₂, -, hlists, -⟩ := single_spec hsingle
    refine ⟨hempty, hoffer, hload _ fun a _ => by rw [hmem₂], fun j => ?_⟩
    rw [hlists, Function.update_apply]
    split_ifs
    · exact load_lt _ _
    · exact hlt j

end Caches
end Cache
end KvStore
