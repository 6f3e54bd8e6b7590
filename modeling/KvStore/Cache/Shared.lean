import KvStore.Cache.Local

/-! The calls of the central cache: a refill takes the central list or cuts new pages into blocks,
and blocks that come back are put in front of the central list. -/
namespace KvStore
open Memory

namespace Cache

variable {T : Type} [DecidableEq T] {s : System T} {lists : Place T → List Block} {t : T}
  {size i n p : ℕ}

/-- The walk of `returnRange` ends at a block of the list. -/
theorem walkEnd_mem {mem : ℕ → UInt8} {ptrs : List ℕ} (h : Chain mem p ptrs) (hp : p ≠ null) (k : ℕ) :
    ∃ pre rest, ptrs = pre ++ Caches.walkEnd mem k p :: rest := by
  induction k generalizing p ptrs with
  | zero =>
    obtain ⟨rest, rfl, -⟩ := h.pop hp
    exact ⟨[], rest, rfl⟩
  | succ k ih =>
    obtain ⟨rest, rfl, hrest⟩ := h.pop hp
    rw [Caches.walkEnd]
    split
    · rename_i hne
      obtain ⟨pre, rest', hsplit⟩ := ih hrest hne
      exact ⟨p :: pre, rest', by rw [hsplit]; rfl⟩
    · exact ⟨[], rest, rfl⟩

/-- The search from the tracker `j` on gives the first one that covers the address. -/
theorem searchTrackers_eq_some_iff {c : CentralCache} {a k j m : ℕ} :
    c.searchTrackers a k j = some (some m) ↔ j ≤ m ∧ m < j + k ∧ m < spanTrackerNum ∧
      CentralCache.covers (c.spanTrackers m) a = true ∧
      ∀ l, j ≤ l → l < m → CentralCache.covers (c.spanTrackers l) a ≠ true := by
  induction k generalizing j with
  | zero =>
    rw [CentralCache.searchTrackers]
    constructor
    · rintro ⟨⟩
    · rintro ⟨hj, hm, -⟩
      omega
  | succ k ih =>
    rw [CentralCache.searchTrackers]
    by_cases hj : j < spanTrackerNum
    · rw [if_pos hj]
      by_cases hc : CentralCache.covers (c.spanTrackers j) a = true
      · rw [if_pos hc]
        constructor
        · rintro ⟨⟩
          exact ⟨le_refl _, by omega, hj, hc, fun l hl hlj => absurd hl (Nat.not_le.mpr hlj)⟩
        · rintro ⟨hjm, -, -, -, hfirst⟩
          obtain rfl | hlt := Nat.eq_or_lt_of_le hjm
          · rfl
          · exact absurd hc (hfirst j (le_refl j) hlt)
      · rw [if_neg hc, ih]
        constructor
        · rintro ⟨hjm, hm, hnum, hcov, hfirst⟩
          refine ⟨by omega, by omega, hnum, hcov, fun l hl hlm => ?_⟩
          obtain rfl | hlt := Nat.eq_or_lt_of_le hl
          · exact hc
          · exact hfirst l hlt hlm
        · rintro ⟨hjm, hm, hnum, hcov, hfirst⟩
          have hne : j ≠ m := by
            rintro rfl
            exact hc hcov
          exact ⟨by omega, by omega, hnum, hcov, fun l hl hlm => hfirst l (by omega) hlm⟩
    · rw [if_neg hj]
      constructor
      · rintro ⟨⟩
      · rintro ⟨hjm, -, hnum, -⟩
        omega

theorem CentralCache.getFromRange_eq_some_iff {c : CentralCache} {a m : ℕ} :
    c.getFromRange a = some (some m) ↔ m < c.spanCount ∧ m < spanTrackerNum ∧
      covers (c.spanTrackers m) a = true ∧ ∀ l < m, covers (c.spanTrackers l) a ≠ true := by
  rw [getFromRange, searchTrackers_eq_some_iff, Nat.zero_add]
  constructor
  · rintro ⟨-, hm, hnum, hcov, hfirst⟩
    exact ⟨hm, hnum, hcov, fun l hl => hfirst l (Nat.zero_le l) hl⟩
  · rintro ⟨hm, hnum, hcov, hfirst⟩
    exact ⟨Nat.zero_le m, hm, hnum, hcov, fun l _ hl => hfirst l hl⟩

/-- A tracker that is found has a span around the address. -/
theorem getFromRange_covers {c : CentralCache} {a m : ℕ} (h : c.getFromRange a = some (some m)) :
    ∃ r, c.Tracks r ∧ r.Has a := by
  obtain ⟨hm, hnum, hcov, -⟩ := CentralCache.getFromRange_eq_some_iff.mp h
  refine ⟨_, ⟨m, hm, hnum, rfl⟩, ?_⟩
  simpa [CentralCache.covers] using hcov

/-- Blocks outside of all tracked spans count for none. -/
theorem countFree_eq {c : Caches} {ptrs : List ℕ} {counts counts' : List (ℕ × ℕ)}
    (h : c.countFree n p counts = some counts') (hchain : Chain c.mem p ptrs)
    (hno : ∀ q ∈ ptrs, ∀ r, c.central.Tracks r → ¬ r.Has q) : counts' = counts := by
  induction n generalizing p ptrs with
  | zero => cases h
  | succ n ih =>
    rw [Caches.countFree] at h
    split at h
    · cases h
      rfl
    · rename_i hp
      obtain ⟨rest, rfl, hrest⟩ := hchain.pop hp
      cases hfind : c.central.getFromRange p with
      | none => simp [hfind] at h
      | some found =>
        cases found with
        | none =>
          simp only [hfind, Option.bind_eq_bind, Option.bind_some] at h
          exact ih h hrest fun q hq => hno q (List.mem_cons_of_mem _ hq)
        | some m =>
          obtain ⟨r, hr, hhas⟩ := getFromRange_covers hfind
          exact absurd hhas (hno p List.mem_cons_self r hr)

/-- The caches of two states that differ in the clocks of the central cache only. -/
structure SameLists (c c' : Caches) : Prop where
  mem : c'.mem = c.mem
  page : c'.page = c.page
  lists : c'.central.centralFreelist = c.central.centralFreelist
  tracks : c'.central.Tracks = c.central.Tracks

theorem performDelayReturn_same {c c' : Caches} {ptrs : List ℕ} {now : ℤ}
    {arrange : List (ℕ × ℕ) → List (ℕ × ℕ)} (h : c.performDelayReturn n i now arrange = some c')
    (ha : ∀ l, (arrange l).Perm l) (hchain : Chain c.mem (c.central.centralFreelist i) ptrs)
    (hno : ∀ q ∈ ptrs, ∀ r, c.central.Tracks r → ¬ r.Has q) : SameLists c c' := by
  unfold Caches.performDelayReturn at h
  rw [Option.bind_eq_bind, Option.bind_eq_some_iff] at h
  obtain ⟨counts, hcount, h⟩ := h
  have hnil : counts = [] := countFree_eq hcount hchain hno
  have harr : arrange counts = [] := by
    rw [hnil]
    exact (ha []).eq_nil
  rw [harr] at h
  cases h
  exact ⟨rfl, rfl, rfl, rfl⟩

/-- `returnRange` puts the blocks up to `last` in front of the central list. When none of them
lies in a tracked span, no span is given back. -/
theorem returnRange_same {c c' : Caches} {start bytes : ℕ} {ptrs : List ℕ} {t₀ now : ℤ}
    {arrange : List (ℕ × ℕ) → List (ℕ × ℕ)} (ha : ∀ l, (arrange l).Perm l)
    (hstart : start ≠ null) (hi : i < freeListSize)
    (hchain : Chain (store c.mem (Caches.walkEnd c.mem (bytes / blockSize i - 1) start)
      (c.central.centralFreelist i)) start ptrs)
    (hno : ∀ q ∈ ptrs, ∀ r, c.central.Tracks r → ¬ r.Has q)
    (h : c.returnRange n start bytes i t₀ now arrange = some c') :
    SameLists ⟨store c.mem (Caches.walkEnd c.mem (bytes / blockSize i - 1) start)
      (c.central.centralFreelist i), c.central.setFreelist i start, c.page⟩ c' := by
  unfold Caches.returnRange at h
  rw [if_neg (not_or.mpr ⟨hstart, by omega⟩)] at h
  dsimp only at h
  split at h
  · have hsame := performDelayReturn_same h ha (by simpa [CentralCache.setFreelist] using hchain) hno
    exact ⟨hsame.mem, hsame.page, hsame.lists, hsame.tracks⟩
  · cases h
    exact ⟨rfl, rfl, rfl, rfl⟩

namespace Orderly

/-- A return of blocks of a class that is not spent. -/
theorem callReturn (h : Orderly s lists) {s' : System T} {start bytes : ℕ} {t₀ now : ℤ}
    {arrange : List (ℕ × ℕ) → List (ℕ × ℕ)} (hpc : s.pc t = .returning start bytes i)
    (his : i ∉ s.spent) (ha : ∀ l, (arrange l).Perm l)
    (hcall : s.callReturn n t start bytes i t₀ now arrange = some s') :
    ∃ lists', Orderly s' lists' := by
  unfold System.callReturn at hcall
  rw [Option.bind_eq_bind, Option.bind_eq_some_iff] at hcall
  obtain ⟨caches, hret, hs'⟩ := hcall
  cases hs'
  have hw := h.waits t
  rw [hpc] at hw
  obtain ⟨hi, hsingle⟩ := hw
  have hsingle := hsingle.resolve_left his
  have hc := h.linked (.flight t) start (by simp [System.head, hpc, Pc.start])
  have hhead : s.head (.central i) = some (s.central.centralFreelist i) := if_neg his
  have hcentral := h.linked (.central i) _ hhead
  have hclass := h.sized (.flight t) i (by simp [System.index, hpc, Pc.index])
  by_cases hstart : start = null
  · have hsame : caches = s.toCaches := by
      unfold Caches.returnRange at hret
      rw [if_pos (.inl hstart)] at hret
      exact (Option.some.inj hret).symm
    subst hsame
    have hnil : lists (.flight t) = [] := List.map_eq_nil_iff.mp (hc.nil_iff.mpr hstart)
    refine ⟨lists, h.of_shared (i := i) h.placed (fun _ _ _ => rfl) (fun _ _ _ _ _ _ => rfl)
      (fun _ _ => rfl) (fun _ hj => hj) (fun _ => hcentral) ?_ (fun j hj => by cases hj) trivial
      h.noSpans⟩
    rw [hnil]
    rfl
  obtain ⟨preP, restP, hptrs⟩ := walkEnd_mem hc hstart (bytes / blockSize i - 1)
  obtain ⟨pre, tail, hlist, hpre, htail⟩ := List.map_eq_append_iff.mp hptrs
  obtain ⟨q, lost, rfl, hq, -⟩ := List.map_eq_cons_iff.mp htail
  have hmemq : q ∈ lists (.flight t) := by simp [hlist]
  have hqword := (h.placed.valid _ q hmemq).2.2
  have hload : ∀ a, Apart a q → ∀ x, a ∈ lists x → ∀ v,
      load (store s.mem q.ptr v) a.ptr = load s.mem a.ptr := by
    intro a haq x hax v
    exact load_store_block haq (h.placed.valid x a hax).2.2 hqword
  have hacross : ∀ x, x ≠ .flight t → ∀ a ∈ lists x, Apart a q := fun x hx a hax =>
    h.placed.separate.across x _ hx a hax q hmemq
  have hwithin := h.placed.separate.within (.flight t)
  rw [hlist] at hwithin
  have hpreq : ∀ a ∈ pre, Apart a q := fun a hap =>
    (List.pairwise_append.mp hwithin).2.2 a hap q List.mem_cons_self
  -- the taken blocks are joined to the old central list
  have hchain : Chain (store s.mem q.ptr (s.central.centralFreelist i)) start
      ((pre ++ q :: lists (.central i)).map Block.ptr) := by
    rw [hlist, List.map_append, List.map_cons] at hc
    rw [List.map_append, List.map_cons]
    refine hc.relink (fun r hr => ?_) ?_
    · obtain ⟨a, hap, rfl⟩ := List.mem_map.mp hr
      exact hload a (hpreq a hap) (.flight t) (by simp [hlist, hap]) _
    · rw [load_store (h.head_lt hhead)]
      exact chain_blocks hcentral fun a hac => hload a (hacross _ (by simp) a hac) _ hac _
  have hall : ∀ a ∈ pre ++ q :: lists (.central i), InClass i a ∧ ∃ x, a ∈ lists x := by
    intro a hmem
    have hcase : a ∈ lists (.flight t) ∨ a ∈ lists (.central i) := by
      simp only [hlist, List.mem_append, List.mem_cons] at hmem ⊢
      tauto
    rcases hcase with hmem | hmem
    · exact ⟨hclass a hmem, _, hmem⟩
    · exact ⟨h.placed.sized i a hmem, _, hmem⟩
  have hno : ∀ r ∈ (pre ++ q :: lists (.central i)).map Block.ptr, ∀ span, s.central.Tracks span →
      ¬ span.Has r := by
    intro r hr span hspan
    obtain ⟨a, hmem, rfl⟩ := List.mem_map.mp hr
    obtain ⟨hac, x, hax⟩ := hall a hmem
    have hlarge : 16384 < a.bytes := hac.1 ▸ blockNum_le_one_iff.mp hsingle
    exact (h.placed.tracked span hspan).2 x a hax hlarge hac.le_maxBytes
  rw [hq] at hchain
  have hsame := returnRange_same ha hstart hi hchain hno hret
  rw [← hq] at hsame hchain
  have htake : (pre ++ [q]).Sublist (lists (.flight t)) := by
    rw [hlist]
    exact List.Sublist.append_left (by simp) pre
  have hplaced := h.placed.giveBack his hsingle htake fun b hb => hclass b (htake.subset hb)
  have htracks : caches.central.Tracks = s.central.Tracks := hsame.tracks
  rw [← htracks] at hplaced
  refine ⟨_, h.of_shared (t := t) (i := i) hplaced (fun x hx hxf => ?_) (fun x hx hxf _ b hb => ?_)
    (fun j hj => ?_) (fun _ hj => hj) (fun _ => ?_) ?_ (fun j hj => by cases hj) trivial ?_⟩
  · rw [Function.update_of_ne hx, Function.update_of_ne hxf]
  · rw [hsame.mem]
    exact hload b (hacross x hxf b hb) x hb _
  · rw [hsame.lists]
    exact Function.update_of_ne hj _ _
  · rw [hsame.mem, hsame.lists, Function.update_self]
    simpa [CentralCache.setFreelist] using hchain
  · rw [Function.update_of_ne (by simp), Function.update_self]
    rfl
  · rw [hsame.page]
    exact h.noSpans

end Orderly
/-- The two ways in which `fetchFromPageCache` and `fetchRange` count pages agree. -/
theorem numPages_eq (size : ℕ) : (if size < spanPages * pageSize then spanPages
    else (size + pageSize - 1) / pageSize) = Caches.numPages size := by
  unfold Caches.numPages spanPages pageSize
  split <;> split <;> omega

/-- The pages of a new span of the class. -/
def span (i : ℕ) (map : Ptr) : Block := ⟨map, Caches.numPages (blockSize i) * pageSize⟩

/-- A span of a class is far from the end of a `size_t`. -/
theorem systemSize_numPages (hi : i < freeListSize) :
    systemSize (Caches.numPages (blockSize i)) = Caches.numPages (blockSize i) * pageSize := by
  have hpages : Caches.numPages (blockSize i) ≤ 64 := by
    simp only [freeListSize, maxBytes, alignment] at hi
    unfold Caches.numPages blockSize spanPages pageSize alignment
    split
    · omega
    · omega
  apply Nat.mod_eq_of_lt
  rw [pageSize]
  omega

/-- While no span is free, all pages come from `mmap`. -/
theorem fetchFromPageCache_of_nil {c : Caches} {node map : ℕ} (hi : i < freeListSize)
    (hspans : c.page.freeSpans = []) :
    c.fetchFromPageCache (blockSize i) node map = if map = null then some (null, c)
      else some (map, ⟨zeroed c.mem map (span i map).bytes, c.central,
        { c.page with
          spans := Function.update c.page.spans node
            (some ⟨null, map, Caches.numPages (blockSize i)⟩)
          spanMap := Function.update c.page.spanMap map (some node) }⟩) := by
  unfold Caches.fetchFromPageCache PageCache.allocateSpan
  simp only [numPages_eq, hspans, List.find?_nil, systemSize_numPages hi]
  split
  · cases c
    rfl
  · rfl

/-- What `fetchRange` does while no span is free: it gives the central list, fails, or cuts the
pages that `mmap` returned. -/
theorem fetchRange_cases {c c' : Caches} {node map : ℕ} (hi : i < freeListSize)
    (hspans : c.page.freeSpans = []) (h : c.fetchRange i node map = some (p, c')) :
    (c.central.centralFreelist i ≠ null ∧ p = c.central.centralFreelist i ∧ c' = c) ∨
    (c.central.centralFreelist i = null ∧ map = null ∧ p = null ∧ c' = c) ∨
    (c.central.centralFreelist i = null ∧ map ≠ null ∧ p = map ∧
      ∃ c₀ : Caches, c₀.mem = zeroed c.mem map (span i map).bytes ∧ c₀.central = c.central ∧
        c₀.page.freeSpans = [] ∧
        ((1 < Caches.blockNum i ∧ c' = c₀.carve i map) ∨
          (Caches.blockNum i ≤ 1 ∧ c₀.single i map = some c'))) := by
  unfold Caches.fetchRange at h
  rw [if_neg (by omega)] at h
  split at h
  · rename_i hne
    cases h
    exact .inl ⟨hne, rfl, rfl⟩
  rename_i hempty
  have hempty : c.central.centralFreelist i = null := not_not.mp hempty
  rw [fetchFromPageCache_of_nil hi hspans] at h
  by_cases hmap : map = null
  · rw [if_pos hmap] at h
    cases h
    exact .inr (.inl ⟨hempty, hmap, rfl, rfl⟩)
  rw [if_neg hmap, Option.bind_eq_bind, Option.bind_some] at h
  dsimp only at h
  rw [if_neg hmap] at h
  refine .inr (.inr ⟨hempty, hmap, ?_⟩)
  by_cases hn : 1 < Caches.blockNum i
  · rw [if_pos hn] at h
    cases h
    refine ⟨rfl, _, ?_, ?_, ?_, .inl ⟨hn, rfl⟩⟩
    · rfl
    · rfl
    · exact hspans
  · rw [if_neg hn, Option.bind_eq_bind, Option.bind_eq_some_iff] at h
    obtain ⟨c₁, hsingle, h⟩ := h
    cases h
    refine ⟨rfl, _, ?_, ?_, ?_, .inr ⟨by omega, hsingle⟩⟩
    · rfl
    · rfl
    · exact hspans

theorem blockNum_pos (i : ℕ) : 0 < Caches.blockNum i :=
  Nat.div_pos (blockSize_le_numPages i) (lt_of_lt_of_le (by decide) (wordBytes_le_blockSize i))

theorem zeroed_of_not_has {m : ℕ → UInt8} {a : ℕ} (h : ¬ (⟨p, n⟩ : Block).Has a) :
    zeroed m p n a = m a := if_neg h

theorem load_zeroed {m : ℕ → UInt8} (h : wordBytes ≤ n) : load (zeroed m p n) p = null := by
  have hzero : load (zeroed m p n) p = load (fun _ => 0) p := by
    refine load_congr fun a ha => if_pos ⟨ha.1, ?_⟩
    exact lt_of_lt_of_le ha.2 (Nat.add_le_add_left h p)
  have hbytes : Endian.ofBytes ((List.range wordBytes).map fun _ => 0) = 0 := by decide
  exact hzero.trans hbytes

theorem single_spec {c c' : Caches} {start : ℕ} (h : c.single i start = some c') :
    c'.mem = c.mem ∧ c'.page = c.page ∧
    c'.central.centralFreelist = Function.update c.central.centralFreelist i (load c.mem start) ∧
    ∀ r, c'.central.Tracks r → c.central.Tracks r := by
  unfold Caches.single at h
  rw [Option.bind_eq_bind, Option.bind_eq_some_iff] at h
  obtain ⟨found, -, h⟩ := h
  cases found with
  | none =>
    cases h
    exact ⟨rfl, rfl, rfl, fun r hr => hr⟩
  | some m =>
    cases h
    refine ⟨rfl, rfl, rfl, ?_⟩
    rintro r ⟨k, hk, hnum, rfl⟩
    refine ⟨k, hk, hnum, ?_⟩
    by_cases hkm : k = m
    · subst hkm
      simp [CentralCache.setTracker, CentralCache.setFreelist]
    · simp [CentralCache.setTracker, CentralCache.setFreelist, hkm]

/-- The blocks of a span lie in its pages. -/
theorem cell_inside (start : ℕ) {j : ℕ} (hj : j < Caches.blockNum i) :
    Inside ⟨start + j * blockSize i, blockSize i⟩ (span i start) := by
  have hle : Caches.blockNum i * blockSize i ≤ Caches.numPages (blockSize i) * pageSize :=
    Nat.div_mul_le_self _ _
  have hcell := cell_le start (blockSize i) hj
  exact ⟨Nat.le_add_right _ _, le_trans hcell (Nat.add_le_add_left hle start)⟩

/-- The memory of a span that is cut, before its first block is taken off. -/
def linked (c : Caches) (i : ℕ) (start : Ptr) : ℕ → UInt8 :=
  store (linkCells c.mem start (blockSize i) (Caches.blockNum i - 1))
    (start + (Caches.blockNum i - 1) * blockSize i) null

theorem carve_mem (c : Caches) (i start : ℕ) :
    (c.carve i start).mem = store (linked c i start) start null := rfl

theorem carve_centralFreelist (c : Caches) (i start : ℕ) :
    (c.carve i start).central.centralFreelist =
      Function.update c.central.centralFreelist i (load (linked c i start) start) := by
  unfold Caches.carve
  dsimp only
  split <;> rfl

theorem carve_tracks {c : Caches} {start : ℕ} {r : Block}
    (h : (c.carve i start).central.Tracks r) : c.central.Tracks r ∨ r = span i start := by
  obtain ⟨k, hk, hnum, rfl⟩ := h
  unfold Caches.carve at hk ⊢
  dsimp only at hk ⊢
  split at hk
  · rename_i hlt
    have hk' : k < c.central.spanCount + 1 := hk
    by_cases hlast : k = c.central.spanCount
    · right
      simp [hlt, hlast, CentralCache.setTracker, span]
    · left
      refine ⟨k, by omega, hnum, ?_⟩
      simp [hlt, hlast, CentralCache.setTracker, CentralCache.setFreelist]
  · rename_i hge
    left
    refine ⟨k, by omega, hnum, ?_⟩
    simp [hge, CentralCache.setFreelist]

/-- A span that is cut is one chain of its blocks. -/
theorem chain_linked {c : Caches} {start : ℕ} (hn : 1 < Caches.blockNum i) (hstart : start ≠ null)
    (hspace : start + (span i start).bytes < 256 ^ wordBytes) :
    Chain (linked c i start) (load (linked c i start) start)
      (cells start (blockSize i) 1 (Caches.blockNum i - 1)) := by
  have hlast : start + (Caches.blockNum i - 1) * blockSize i < 256 ^ wordBytes := by
    have hin := (cell_inside start (show Caches.blockNum i - 1 < Caches.blockNum i by omega)).2
    exact lt_of_le_of_lt (le_trans (Nat.le_add_right _ _) hin) hspace
  have hchain : Chain (linked c i start) start (cells start (blockSize i) 0 (Caches.blockNum i - 1 + 1)) :=
    chain_linkCells (wordBytes_le_blockSize i) hstart hlast
  rw [cells_succ, Nat.zero_mul, Nat.add_zero] at hchain
  exact hchain.2.2

/-- After a span is cut, its first block stands alone and the others are the central list. -/
theorem chain_carve {c : Caches} {start : ℕ} (hn : 1 < Caches.blockNum i) (hstart : start ≠ null)
    (hspace : start + (span i start).bytes < 256 ^ wordBytes) :
    Chain (c.carve i start).mem start [start] ∧
    Chain (c.carve i start).mem ((c.carve i start).central.centralFreelist i)
      (cells start (blockSize i) 1 (Caches.blockNum i - 1)) := by
  rw [carve_mem, carve_centralFreelist, Function.update_self]
  refine ⟨⟨rfl, hstart, load_store (by decide)⟩, ?_⟩
  refine (chain_linked hn hstart hspace).congr fun q hq => load_store_of_apart ?_
  obtain ⟨j, hj, -, rfl⟩ := mem_cells.mp hq
  have hword := wordBytes_le_blockSize i
  have hcells : Apart ⟨start + j * blockSize i, wordBytes⟩ ⟨start + 0 * blockSize i, wordBytes⟩ :=
    cells_apart (by omega) hword hword
  rwa [Nat.zero_mul, Nat.add_zero] at hcells

/-- Cutting a span writes into its pages only. -/
theorem carve_of_not_has {c : Caches} {start a : ℕ} (hn : 1 < Caches.blockNum i)
    (ha : ¬ (span i start).Has a) : (c.carve i start).mem a = c.mem a := by
  have hword := wordBytes_le_blockSize i
  have hout : ∀ b, Inside b (span i start) → ¬ b.Has a := fun b hb hba => ha (hb.has hba)
  have hin : ∀ j, j < Caches.blockNum i →
      Inside ⟨start + j * blockSize i, wordBytes⟩ (span i start) := by
    intro j hj
    have hle := cell_inside start hj
    exact ⟨hle.1, le_trans (Nat.add_le_add_left hword _) hle.2⟩
  have hzero := hin 0 (by omega)
  rw [Nat.zero_mul, Nat.add_zero] at hzero
  rw [carve_mem, store_of_not_has (hout _ hzero), linked,
    store_of_not_has (hout _ (hin (Caches.blockNum i - 1) (by omega))),
    linkCells_of_not_has hword (hout _ ?_)]
  refine ⟨Nat.le_refl _, Nat.add_le_add_left ?_ start⟩
  exact le_trans (Nat.mul_le_mul_right _ (Nat.sub_le _ _)) (Nat.div_mul_le_self _ _)

namespace Orderly

/-- A refill puts new pages, cut into blocks, under the class. -/
theorem refill (h : Orderly s lists) {caches : Caches} {start : ℕ} (rest : List ℕ)
    (hpc : s.pc t = .fetch size) (his : getIndex size ∉ s.spent)
    (hempty : s.central.centralFreelist (getIndex size) = null) (hstart : start ≠ null)
    (hfresh : s.Fresh start (span (getIndex size) start).bytes)
    (hmem : ∀ a, ¬ (span (getIndex size) start).Has a → caches.mem a = s.mem a)
    (hlist : ∀ j, j ≠ getIndex size →
      caches.central.centralFreelist j = s.central.centralFreelist j)
    (htracks : ∀ r, caches.central.Tracks r →
      s.central.Tracks r ∨ r = span (getIndex size) start ∧ 1 < Caches.blockNum (getIndex size))
    (hspans : caches.page.freeSpans = []) (hfirst : Chain caches.mem start [start])
    (hrest : Chain caches.mem (caches.central.centralFreelist (getIndex size)) rest)
    (hcells : start :: rest =
      cells start (blockSize (getIndex size)) 0 (Caches.blockNum (getIndex size))) :
    ∃ lists', Orderly { s with
      toCaches := caches
      pc := Function.update s.pc t (.fetched start size)
      pages := span (getIndex size) start :: s.pages } lists' := by
  set i := getIndex size with hi
  obtain ⟨hspace, hnew⟩ := hfresh hstart
  have hw := h.waits t
  rw [hpc] at hw
  obtain ⟨hsize, hown⟩ := hw
  have hhead : s.head (.central i) = some (s.central.centralFreelist i) := if_neg his
  have hcentral : lists (.central i) = [] :=
    List.map_eq_nil_iff.mp ((h.linked _ _ hhead).nil_iff.mpr hempty)
  have hpage : ∀ x, x ≠ .out → ∀ b ∈ lists x, Apart (span i start) b := by
    intro x hx b hb
    obtain ⟨r, hr, hin⟩ := h.inside_pages hx hb
    exact (hin.apart (hnew r (List.mem_append_left _ hr)).symm).symm
  have hmemq : ∀ q ∈ start :: rest, q ≠ null ∧ q < 256 ^ wordBytes ∧
      Inside ⟨q, blockSize i⟩ (span i start) := by
    intro q hq
    rw [hcells] at hq
    obtain ⟨j, -, hj, rfl⟩ := mem_cells.mp hq
    have hin := cell_inside start (show j < Caches.blockNum i by omega)
    have hlt : start + j * blockSize i < 256 ^ wordBytes :=
      lt_of_le_of_lt (le_trans (Nat.le_add_right _ _) hin.2) hspace
    exact ⟨Nat.ne_of_gt (Nat.add_pos_left (Nat.pos_of_ne_zero hstart) _), hlt, hin⟩
  have hlength : rest.length + 1 = Caches.blockNum i := by
    have := congrArg List.length hcells
    simpa [cells] using this
  have hplaced : Placed (span i start :: s.pages) s.spent caches.central.Tracks
      (Function.update (Function.update lists (.flight t) [⟨start, blockSize i⟩]) (.central i)
        (rest.map fun q => ⟨q, blockSize i⟩)) := by
    refine h.placed.refill (getIndex_lt hsize) hcentral
      (fun q hq => hnew q (List.mem_append_left _ hq)) (fun y c hc hlarge => ?_)
      (fun c hc => ?_) ?_ ?_ (fun hs => absurd hs his) htracks
    · have hy : y = .out := by
        by_contra hy
        have := h.bytes_le hy hc
        omega
      rw [hy, h.out] at hc
      exact hnew c (List.mem_append_right _ hc)
    · rw [← List.map_cons (f := fun q => (⟨q, blockSize i⟩ : Block))] at hc
      obtain ⟨q, hq, rfl⟩ := List.mem_map.mp hc
      obtain ⟨hnull, hlt, hin⟩ := hmemq q hq
      exact ⟨hnull, hlt, rfl, hin⟩
    · rw [← List.map_cons (f := fun q => (⟨q, blockSize i⟩ : Block)), hcells]
      exact List.pairwise_map.mpr (cells_pairwise start (blockSize i) 0 _)
    · rw [← hlength]
      cases rest with
      | nil => simp
      | cons q rest => simp
  refine ⟨_, h.of_shared (t := t) (i := i) hplaced (fun x hx hxf => ?_) (fun x _ _ hxo b hb => ?_)
    hlist (fun _ hj => hj) (fun _ => ?_) ?_ (fun j hj => ?_) ⟨hsize, hown⟩ hspans⟩
  · rw [Function.update_of_ne hx, Function.update_of_ne hxf]
  · refine load_congr fun a ha => hmem a ?_
    have hba : b.Has a :=
      ⟨ha.1, lt_of_lt_of_le ha.2 (Nat.add_le_add_left (h.placed.valid x b hb).2.2 _)⟩
    exact fun hsa => (hpage x hxo b hb).not_has hsa hba
  · rw [Function.update_self, List.map_map]
    simpa [Function.comp_def] using hrest
  · rw [Function.update_of_ne (by simp), Function.update_self]
    exact hfirst
  · intro b hb
    rw [Function.update_of_ne (by simp), Function.update_self, List.mem_singleton] at hb
    obtain rfl : i = j := Option.some.inj hj
    rw [hb]
    exact ⟨rfl, getIndex_lt hsize⟩

/-- A call of `fetchRange` for a class that is not spent. -/
theorem callFetch (h : Orderly s lists) {s' : System T} {node map : ℕ} (hpc : s.pc t = .fetch size)
    (his : getIndex size ∉ s.spent) (hm : s.Fresh map (span (getIndex size) map).bytes)
    (hcall : s.callFetch t size node map = some s') : ∃ lists', Orderly s' lists' := by
  unfold System.callFetch at hcall
  rw [Option.bind_eq_bind, Option.bind_eq_some_iff] at hcall
  obtain ⟨⟨start, caches⟩, hfetch, hs'⟩ := hcall
  have hw := h.waits t
  rw [hpc] at hw
  have hi := getIndex_lt hw.1
  have hflight := h.flight_nil (t := t) (by rw [hpc]; rfl)
  have hhead : s.head (.central (getIndex size)) =
    some (s.central.centralFreelist (getIndex size)) := if_neg his
  have hcentral := h.linked _ _ hhead
  obtain ⟨hne, rfl, rfl⟩ | ⟨hempty, rfl, rfl, rfl⟩ | ⟨hempty, hmap, rfl, c₀, hmem₀, hc₀, hspans₀, hcut⟩ :=
    fetchRange_cases hi h.noSpans hfetch
  · dsimp only at hs'
    rw [if_neg fun hand => hne hand.1, if_pos hne] at hs'
    cases hs'
    refine ⟨_, h.of_shared (t := t) (i := getIndex size) (h.placed.spend (t := t) hflight)
      (fun x hx hxf => ?_) (fun _ _ _ _ _ _ => rfl) (fun _ _ => rfl)
      (fun j hj => List.mem_cons_of_mem _ hj) (fun hno => absurd List.mem_cons_self hno) ?_
      (fun j hj => ?_) hw h.noSpans⟩
    · rw [Function.update_of_ne hxf, Function.update_of_ne hx]
    · rw [Function.update_self]
      exact hcentral
    · obtain rfl : getIndex size = j := Option.some.inj hj
      rw [Function.update_self]
      exact h.placed.sized _
  · dsimp only at hs'
    rw [if_neg fun hand => hand.2.1 rfl, if_neg (not_not.mpr hempty)] at hs'
    cases hs'
    refine ⟨lists, h.of_shared (t := t) (i := getIndex size) h.placed (fun _ _ _ => rfl)
      (fun _ _ _ _ _ _ => rfl) (fun _ _ => rfl) (fun _ hj => hj) (fun _ => hcentral) ?_
      (fun j hj => ?_) hw h.noSpans⟩
    · rw [hflight]
      rfl
    · rw [hflight]
      simp
  · dsimp only at hs'
    rw [if_pos ⟨hempty, hmap, by rw [h.noSpans]; rfl⟩, if_neg (not_not.mpr hempty)] at hs'
    cases hs'
    have hzero : ∀ a, ¬ (span (getIndex size) start).Has a → c₀.mem a = s.mem a := by
      intro a ha
      rw [hmem₀]
      exact zeroed_of_not_has ha
    obtain ⟨hn, rfl⟩ | ⟨hn, hsingle⟩ := hcut
    · obtain ⟨hfirst, hrest⟩ := chain_carve (c := c₀) hn hmap (hm hmap).1
      refine h.refill _ hpc his hempty hmap hm (fun a ha => ?_) (fun j hj => ?_) (fun r hr => ?_)
        ?_ hfirst hrest ?_
      · rw [carve_of_not_has hn ha, hzero a ha]
      · rw [carve_centralFreelist, Function.update_of_ne hj, hc₀]
      · rw [← hc₀]
        exact (carve_tracks hr).imp_right fun hr => ⟨hr, hn⟩
      · exact hspans₀
      · obtain ⟨k, hk⟩ : ∃ k, Caches.blockNum (getIndex size) = k + 1 :=
          ⟨Caches.blockNum (getIndex size) - 1, by omega⟩
        rw [hk, cells_succ, Nat.zero_mul]
        rfl
    · obtain ⟨hmem, hpage, hlists, htracks⟩ := single_spec hsingle
      have hle := le_trans (wordBytes_le_blockSize _) (blockSize_le_numPages (getIndex size))
      have hload : load caches.mem start = null := by
        rw [hmem, hmem₀]
        exact load_zeroed hle
      refine h.refill [] hpc his hempty hmap hm (fun a ha => ?_) (fun j hj => ?_)
        (fun r hr => ?_) ?_ ⟨rfl, hmap, hload⟩ ?_ ?_
      · rw [hmem, hzero a ha]
      · rw [hlists, Function.update_of_ne hj, hc₀]
      · rw [← hc₀]
        exact .inl (htracks r hr)
      · rw [hpage, hspans₀]
      · rw [hlists, Function.update_self, ← hmem, hload]
        rfl
      · have hone : Caches.blockNum (getIndex size) = 1 := le_antisymm hn (blockNum_pos _)
        rw [hone, cells_succ, Nat.zero_mul]
        rfl

end Orderly
end Cache
end KvStore
