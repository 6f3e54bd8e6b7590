import KvStore.Cache.Orderly

/-! The steps that a thread takes on its own list: a block is taken off or put in front, a refill
is shared out, and a long list is cut. -/
namespace KvStore
open Memory

namespace Cache

variable {T : Type} [DecidableEq T] {s : System T} {lists : Place T → List Block} {t : T}
  {size i n p : ℕ}

theorem getIndex_lt (hsize : size ≤ maxBytes) : getIndex size < freeListSize := by
  have hlist : freeListSize = 32768 := rfl
  have hmax : maxBytes = 262144 := rfl
  unfold getIndex alignment
  omega

theorem getIndex_asked (size : ℕ) :
    getIndex (if size = 0 then alignment else size) = getIndex size := by
  split
  · rename_i h
    rw [h]
    rfl
  · rfl

theorem maxBytes_lt_asked : maxBytes < (if size = 0 then alignment else size) ↔ maxBytes < size := by
  split
  · rename_i h
    rw [h]
    decide
  · rfl

theorem extent_of_le (hsize : size ≤ maxBytes) (p : ℕ) :
    extent (p, size) = ⟨p, blockSize (getIndex size)⟩ := by
  rw [extent, if_neg (by omega)]

theorem extent_of_lt (hsize : maxBytes < size) (p : ℕ) : extent (p, size) = ⟨p, size⟩ := by
  rw [extent, if_pos hsize]

theorem block_eq {b : Block} (hptr : b.ptr = p) (hbytes : b.bytes = n) : b = ⟨p, n⟩ := by
  cases b
  cases hptr
  cases hbytes
  rfl

/-- The block that a call returns is apart from all outstanding ones. -/
def FromOut (s : System T) (b : Ptr × ℕ) : Prop :=
  ∀ c ∈ s.out, c.1 ≠ b.1 ∧ Apart (extent b) (extent c)

omit [DecidableEq T] in
theorem Orderly.fromOut (h : Orderly s lists) {x : Place T} {b : Block} (hx : x ≠ .out)
    (hb : b ∈ lists x) (hextent : extent (p, size) = b) : FromOut s (p, size) := by
  intro c hc
  have hmem : extent c ∈ lists .out := by
    rw [h.out]
    exact List.mem_map_of_mem hc
  have hap := h.placed.separate.across x .out hx b hb (extent c) hmem
  have hpos := fun x b hb => lt_of_lt_of_le (by decide : 0 < wordBytes) (h.placed.valid x b hb).2.2
  rw [hextent]
  refine ⟨?_, hap⟩
  have hne := hap.ptr_ne (hpos x b hb) (hpos .out _ hmem)
  rw [← hextent] at hne
  exact hne.symm

namespace Orderly

theorem of_out (h : Orderly s lists) {out' : List (Ptr × ℕ)}
    (hplaced : Placed s.pages s.spent s.central.Tracks
      (Function.update lists .out (out'.map extent))) :
    Orderly { s with out := out' } (Function.update lists .out (out'.map extent)) := by
  have hother : ∀ x, x ≠ .out → Function.update lists .out (out'.map extent) x = lists x :=
    fun x hx => Function.update_of_ne hx _ _
  refine ⟨hplaced, Function.update_self _ _ _, fun x p hp => ?_, fun x i hi => ?_, fun t => ?_,
    h.noSpans⟩
  · have hx : x ≠ .out := by
      rintro rfl
      cases hp
    rw [hother x hx]
    exact h.linked x p hp
  · have hx : x ≠ .out := by
      rintro rfl
      cases hi
    rw [hother x hx]
    exact h.sized x i hi
  · exact h.waits t

omit [DecidableEq T] in
/-- User code does not write into the blocks that it does not hold. -/
theorem load_of_writes (h : Orderly s lists) {mem' : ℕ → UInt8} (hw : s.Writes mem') {x : Place T}
    (hx : x ≠ .out) {b : Block} (hb : b ∈ lists x) : load mem' b.ptr = load s.mem b.ptr := by
  refine load_congr fun a ha => ?_
  obtain ⟨r, hr, hin⟩ := h.inside_pages hx hb
  have hba : b.Has a := by
    have hle := (h.placed.valid x b hb).2.2
    exact ⟨ha.1, lt_of_lt_of_le ha.2 (Nat.add_le_add_left hle _)⟩
  refine hw a ⟨r, hr, hin.has hba⟩ fun c hc hca => ?_
  have hmem : extent c ∈ lists .out := by
    rw [h.out]
    exact List.mem_map_of_mem hc
  exact (h.placed.separate.across x .out hx b hb _ hmem).not_has hba hca

omit [DecidableEq T] in
/-- User code writes into its blocks. -/
theorem write (h : Orderly s lists) {mem' : ℕ → UInt8} (hw : s.Writes mem') :
    Orderly { s with mem := mem' } lists := by
  refine ⟨h.placed, h.out, fun x p hp => ?_, h.sized, h.waits, h.noSpans⟩
  have hx : x ≠ .out := by
    rintro rfl
    cases hp
  exact chain_blocks (h.linked x p hp) fun b hb => h.load_of_writes hw hx hb

/-- A thread takes a block off its own list. -/
theorem pop (h : Orderly s lists) (hpc : s.pc t = .idle) (hsize : size ≤ maxBytes)
    (hp : (s.thread t).freelist (getIndex size) ≠ null) (n : ℕ) :
    FromOut s ((s.thread t).freelist (getIndex size), size) ∧
    ∃ lists', Orderly { s.setThread t ((s.thread t).setList (getIndex size)
        (load s.mem ((s.thread t).freelist (getIndex size))) n) .idle with
      out := ((s.thread t).freelist (getIndex size), size) :: s.out } lists' := by
  set i := getIndex size with hi
  have hc := h.linked (.thread t i) _ rfl
  obtain ⟨ptrs, hmap, hrest⟩ := hc.pop hp
  obtain ⟨b, rest, hlist, hptr, rfl⟩ := List.map_eq_cons_iff.mp hmap
  have hb : b ∈ lists (.thread t i) := hlist ▸ List.mem_cons_self
  have hclass := h.sized (.thread t i) i rfl b hb
  have hext : extent ((s.thread t).freelist i, size) = b := by
    rw [extent_of_le hsize, ← hi]
    exact (block_eq hptr hclass.1).symm
  have hplaced : Placed s.pages s.spent s.central.Tracks
      (Function.update (Function.update lists (.thread t i) rest) .out (b :: lists .out)) := by
    refine h.placed.exchange (by simp) (by simp) (by simp) ?_
    rw [hlist]
    exact List.perm_middle.subperm
  refine ⟨h.fromOut (by simp) hb hext, _, h.of_local (t := t) (i := i) hplaced
    (fun x hx _ hxo => ?_) (fun _ _ _ _ _ _ => rfl) (fun j hj => ?_) ?_ ?_ ?_ (fun j hj => ?_)
    ?_ trivial⟩
  · rw [Function.update_of_ne hxo, Function.update_of_ne hx]
  · exact Function.update_of_ne hj _ _
  · simpa [ThreadCache.setList] using hrest
  · intro c hc
    refine h.sized (.thread t i) i rfl c (hlist ▸ List.mem_cons_of_mem _ ?_)
    simpa using hc
  · have hnil := h.flight_nil (t := t) (by rw [hpc]; rfl)
    simp [hnil, Pc.start, Chain, null]
  · cases hj
  · simp [h.out, hext]

/-- A thread finds its list empty. -/
theorem miss (h : Orderly s lists) (hsize : size ≤ maxBytes) (hpc : s.pc t = .idle)
    (hp : (s.thread t).freelist (getIndex size) = null) (n : ℕ) :
    Orderly (s.setThread t ((s.thread t).setList (getIndex size) null n) (.fetch size)) lists := by
  have hc := h.linked (.thread t (getIndex size)) _ rfl
  have hnil : lists (.thread t (getIndex size)) = [] := List.map_eq_nil_iff.mp (hc.nil_iff.mpr hp)
  have hflight := h.flight_nil (t := t) (by rw [hpc]; rfl)
  refine h.of_local (t := t) (i := getIndex size) h.placed (fun _ _ _ _ => rfl)
    (fun _ _ _ _ _ _ => rfl) (fun j hj => Function.update_of_ne hj _ _) ?_ ?_ ?_ (fun j _ => ?_)
    h.out ⟨hsize, hnil⟩
  · simp [hnil, ThreadCache.setList, Chain, null]
  · simp [hnil]
  · simp [hflight, Pc.start, Chain, null]
  · simp [hflight]

/-- The end of a refill that got nothing. -/
theorem finish_null (h : Orderly s lists) (hpc : s.pc t = .fetched null size) :
    Orderly (s.setThread t (s.thread t) .idle) lists := by
  have hflight := h.flight_nil (t := t) (by rw [hpc]; rfl)
  refine h.of_local (t := t) (i := getIndex size) h.placed (fun _ _ _ _ => rfl)
    (fun _ _ _ _ _ _ => rfl) (fun j hj => rfl) (h.linked _ _ rfl) (h.sized _ _ rfl) ?_
    (fun j hj => by cases hj) h.out trivial
  simp [hflight, Pc.start, Chain, null]

/-- The end of a refill: the first block is returned, the others are the list of the thread. -/
theorem finish (h : Orderly s lists) {start : ℕ} (hpc : s.pc t = .fetched start size)
    (hstart : start ≠ null) (n : ℕ) :
    FromOut s (start, size) ∧
    ∃ lists', Orderly { s.setThread t ((s.thread t).setList (getIndex size) (load s.mem start) n)
      .idle with out := (start, size) :: s.out } lists' := by
  set i := getIndex size with hi
  have hw := h.waits t
  rw [hpc] at hw
  obtain ⟨hsize, hown⟩ := hw
  have hown' : lists (.thread t i) = [] := hown
  have hc := h.linked (.flight t) start (by simp [System.head, hpc, Pc.start])
  obtain ⟨ptrs, hmap, hrest⟩ := hc.pop hstart
  obtain ⟨b, rest, hlist, hptr, rfl⟩ := List.map_eq_cons_iff.mp hmap
  have hclass : ∀ c ∈ b :: rest, InClass i c := by
    intro c hc
    exact h.sized (.flight t) i (by simp [System.index, hpc, Pc.index, hi]) c (hlist ▸ hc)
  have hext : extent (start, size) = b := by
    rw [extent_of_le hsize, ← hi]
    exact (block_eq hptr (hclass b List.mem_cons_self).1).symm
  refine ⟨h.fromOut (x := .flight t) (by simp) (hlist ▸ List.mem_cons_self) hext, ?_⟩
  -- first the block goes to user code, then the others go to the thread
  have hout : Placed s.pages s.spent s.central.Tracks
      (Function.update (Function.update lists (.flight t) rest) .out (b :: lists .out)) := by
    refine h.placed.exchange (by simp) (by simp) (by simp) ?_
    rw [hlist]
    exact List.perm_middle.subperm
  have hplaced : Placed s.pages s.spent s.central.Tracks
      (Function.update (Function.update (Function.update (Function.update lists (.flight t) rest)
        .out (b :: lists .out)) (.flight t) []) (.thread t i) rest) := by
    refine hout.exchange (by simp) (by simp) (by simp) ?_
    simp [hown', List.Subperm.refl]
  refine ⟨_, h.of_local (t := t) (i := i) hplaced (fun x hx hxf hxo => ?_)
    (fun _ _ _ _ _ _ => rfl) (fun j hj => Function.update_of_ne hj _ _) ?_ ?_ ?_
    (fun j hj => by cases hj) ?_ trivial⟩
  · rw [Function.update_of_ne hx, Function.update_of_ne hxf, Function.update_of_ne hxo,
      Function.update_of_ne hxf]
  · simpa [ThreadCache.setList] using hrest
  · intro c hc
    refine hclass c (List.mem_cons_of_mem _ ?_)
    simpa using hc
  · simp [Pc.start, Chain, null]
  · simp [h.out, hext]

/-- `malloc` serves a large request. -/
theorem allocLarge (h : Orderly s lists) (hsize : maxBytes < size) (hp : p ≠ null)
    (hfresh : s.Fresh p size) :
    FromOut s (p, size) ∧ ∃ lists', Orderly { s with out := (p, size) :: s.out } lists' := by
  obtain ⟨hspace, hnew⟩ := hfresh hp
  have hext := extent_of_lt hsize p
  refine ⟨fun c hc => ?_, _, h.of_out ?_⟩
  · have hap := hnew (extent c) (List.mem_append_right _ (List.mem_map_of_mem hc))
    have hmem : extent c ∈ lists .out := by
      rw [h.out]
      exact List.mem_map_of_mem hc
    have hpos := lt_of_lt_of_le (by decide : 0 < wordBytes) (h.placed.valid _ _ hmem).2.2
    rw [hext]
    exact ⟨(hap.ptr_ne (by dsimp only; omega) hpos).symm, hap⟩
  · rw [List.map_cons, hext, ← h.out]
    refine h.placed.addOut hp (by dsimp only; omega) hsize fun y c hc => ?_
    by_cases hy : y = .out
    · rw [hy, h.out] at hc
      exact hnew c (List.mem_append_right _ hc)
    · obtain ⟨r, hr, hin⟩ := h.inside_pages hy hc
      exact (hin.apart (hnew r (List.mem_append_left _ hr)).symm).symm

theorem map_erase_perm {x : Ptr × ℕ} {out : List (Ptr × ℕ)} (hx : x ∈ out) :
    (extent x :: (out.erase x).map extent).Perm (out.map extent) :=
  ((List.perm_cons_erase hx).map extent).symm

/-- A large block goes back to `free`. -/
theorem freeLarge (h : Orderly s lists) {x : Ptr × ℕ} (hx : x ∈ s.out) :
    ∃ lists', Orderly { s with out := s.out.erase x } lists' := by
  refine ⟨_, h.of_out (h.placed.dropOut ?_)⟩
  rw [h.out]
  exact ((List.sublist_cons_self _ _).subperm).trans (map_erase_perm hx).subperm

omit [DecidableEq T] in
theorem head_lt (h : Orderly s lists) {x : Place T} (hp : s.head x = some p) :
    p < 256 ^ wordBytes := by
  have hc := h.linked x p hp
  cases hl : lists x with
  | nil =>
    rw [hl] at hc
    exact lt_of_eq_of_lt hc (Nat.pow_pos (by decide))
  | cons b rest =>
    rw [hl] at hc
    rw [hc.1]
    exact (h.placed.valid x b (hl ▸ List.mem_cons_self)).2.1

/-- A freed block is put in front of the list of the thread. -/
theorem push (h : Orderly s lists) (hpc : s.pc t = .idle) (hsize : size ≤ maxBytes)
    (hp : (p, size) ∈ s.out) (n : ℕ) :
    ∃ lists', Orderly { s with
      mem := store s.mem p ((s.thread t).freelist (getIndex size))
      thread := Function.update s.thread t ((s.thread t).setList (getIndex size) p n)
      pc := Function.update s.pc t .idle
      out := s.out.erase (p, size) } lists' := by
  set i := getIndex size with hi
  have hext : extent (p, size) = ⟨p, blockSize i⟩ := extent_of_le hsize p
  have hperm := map_erase_perm hp
  rw [← h.out, hext] at hperm
  have hmem : (⟨p, blockSize i⟩ : Block) ∈ lists .out := hperm.subset List.mem_cons_self
  obtain ⟨hnull, hspace, -⟩ := h.placed.valid _ _ hmem
  have hclass : InClass i ⟨p, blockSize i⟩ := ⟨rfl, getIndex_lt hsize⟩
  have hload : ∀ x, x ≠ .out → ∀ b ∈ lists x, ∀ v, load (store s.mem p v) b.ptr = load s.mem b.ptr := by
    intro x hx b hb v
    exact load_store_block (b := ⟨p, blockSize i⟩) (h.placed.separate.across x .out hx b hb _ hmem)
      (h.placed.valid x b hb).2.2 (h.placed.valid _ _ hmem).2.2
  have hplaced : Placed s.pages s.spent s.central.Tracks
      (Function.update (Function.update lists (.thread t i) (⟨p, blockSize i⟩ :: lists (.thread t i)))
        .out ((s.out.erase (p, size)).map extent)) := by
    refine h.placed.exchange (by simp) (by simp) (by simp) (List.Perm.subperm ?_)
    exact List.perm_middle.symm.trans (List.Perm.append_left _ hperm)
  have hc := h.linked (.thread t i) _ rfl
  refine ⟨_, h.of_local (t := t) (i := i) hplaced (fun x hx _ hxo => ?_)
    (fun x _ _ hxo b hb => hload x hxo b hb _) (fun j hj => Function.update_of_ne hj _ _) ?_ ?_ ?_
    (fun j hj => by cases hj) ?_ trivial⟩
  · rw [Function.update_of_ne hxo, Function.update_of_ne hx]
  · have hhead : (s.thread t).freelist i < 256 ^ wordBytes := h.head_lt (x := .thread t i) rfl
    have hpush := hc.push hnull hhead fun r hr => ?_
    · simpa [ThreadCache.setList] using hpush
    · obtain ⟨b, hb, rfl⟩ := List.mem_map.mp hr
      exact (h.placed.separate.across _ .out (by simp) b hb _ hmem).words
        (h.placed.valid _ b hb).2.2 (h.placed.valid _ _ hmem).2.2
  · intro c hc
    rw [Function.update_of_ne (by simp), Function.update_self] at hc
    rcases List.mem_cons.mp hc with rfl | hc
    · exact hclass
    · exact h.sized (.thread t i) i rfl c hc
  · have hnil := h.flight_nil (t := t) (by rw [hpc]; rfl)
    simp [hnil, Pc.start, Chain, null]
  · simp

end Orderly

/-- The loop of `returnToCentralCache` stops at the last block that is kept. -/
theorem splitNode_of_long {mem : ℕ → UInt8} {pre : List ℕ} {q : ℕ} {rest : List ℕ}
    {batchNum k j r : ℕ} (h : Chain mem p (pre ++ q :: rest)) (hk : pre.length = k) :
    ThreadCache.splitNode mem batchNum k j p r = (q, r) := by
  subst hk
  induction pre generalizing p j with
  | nil =>
    obtain ⟨rfl, -⟩ := h
    rfl
  | cons x pre ih =>
    obtain ⟨rfl, -, hrest⟩ := h
    have hne : load mem p ≠ null := by
      cases pre with
      | nil => exact hrest.1 ▸ hrest.2.1
      | cons y pre => exact hrest.1 ▸ hrest.2.1
    rw [List.length_cons, ThreadCache.splitNode, if_neg hne]
    exact ih hrest

theorem splitNode_of_short {mem : ℕ → UInt8} {ptrs : List ℕ} {batchNum j k r : ℕ}
    (h : Chain mem p ptrs) (hp : p ≠ null) (hk : ptrs.length ≤ k) :
    (ThreadCache.splitNode mem batchNum k j p r).1 = null := by
  induction ptrs generalizing p j k with
  | nil => exact absurd h hp
  | cons x ptrs ih =>
    obtain ⟨rfl, -, hrest⟩ := h
    obtain ⟨k, rfl⟩ : ∃ k', k = k' + 1 := ⟨k - 1, by simp only [List.length_cons] at hk; omega⟩
    rw [ThreadCache.splitNode]
    split
    · rfl
    · rename_i hne
      exact ih hrest hne (by simp only [List.length_cons] at hk; omega)

theorem exists_split {α : Type*} {l : List α} {k : ℕ} (h : k < l.length) :
    ∃ pre q rest, l = pre ++ q :: rest ∧ pre.length = k := by
  refine ⟨l.take k, l[k], l.drop (k + 1), ?_, by simp [h.le]⟩
  rw [← List.drop_eq_getElem_cons h, List.take_append_drop]

namespace Orderly

omit [DecidableEq T] in
/-- A list of at least two blocks of a class shows that the class shares no spans or is spent. -/
theorem spent_or_single (h : Orderly s lists) (hi : i < freeListSize) {x : Place T}
    (hx : x ≠ .central i) {a b : Block} (ha : a ∈ lists x) (hb : b ∈ lists x) (hab : Apart a b)
    (hac : InClass i a) (hbc : InClass i b) : i ∈ s.spent ∨ Caches.blockNum i ≤ 1 := by
  by_contra hno
  obtain ⟨hs, hn⟩ := not_or.mp hno
  obtain ⟨b₀, hb₀⟩ := h.placed.lone i hi hs (by omega)
  rw [(hb₀ x hx a ha hac.1).1, (hb₀ x hx b hb hbc.1).1] at hab
  refine not_apart_self ?_ hab
  rw [← (hb₀ x hx a ha hac.1).1]
  exact lt_of_lt_of_le (by decide : 0 < wordBytes) (h.placed.valid x a ha).2.2

end Orderly

theorem System.returnToCentralCache_of_short {start : ℕ}
    (hshort : (ThreadCache.splitNode s.mem ((s.thread t).freelistSize (getIndex size))
      (max ((s.thread t).freelistSize (getIndex size) / 4) 1 - 1) 0 start
      ((s.thread t).freelistSize (getIndex size) -
        max ((s.thread t).freelistSize (getIndex size) / 4) 1)).1 = null) :
    s.returnToCentralCache t start size = s := by
  simp [System.returnToCentralCache, hshort]

/-- The list is cut behind the block `q`, and the blocks after it are to be returned. -/
theorem System.returnToCentralCache_of_long {start q r : ℕ}
    (hbatch : 1 < (s.thread t).freelistSize (getIndex size))
    (hsplit : ThreadCache.splitNode s.mem ((s.thread t).freelistSize (getIndex size))
      (max ((s.thread t).freelistSize (getIndex size) / 4) 1 - 1) 0 start
      ((s.thread t).freelistSize (getIndex size) -
        max ((s.thread t).freelistSize (getIndex size) / 4) 1) = (q, r)) (hq : q ≠ null) :
    s.returnToCentralCache t start size = { s with
      mem := store s.mem q null
      thread := Function.update s.thread t ((s.thread t).setList (getIndex size) start
        (max ((s.thread t).freelistSize (getIndex size) / 4) 1))
      pc := Function.update s.pc t (if 0 < r ∧ load s.mem q ≠ null
        then .returning (load s.mem q) (r * roundUp size % 2 ^ 64) (getIndex size) else .idle) } := by
  simp only [System.returnToCentralCache, hsplit, System.setThread]
  rw [if_neg (by omega), if_neg hq]

namespace Orderly

/-- A thread with a long list keeps a part of it and goes to return the others. -/
theorem returnToCentralCache (h : Orderly s lists) (hpc : s.pc t = .idle) (hsize : size ≤ maxBytes)
    {start : ℕ} (hstart : (s.thread t).freelist (getIndex size) = start) (hnull : start ≠ null)
    (hbatch : 256 < (s.thread t).freelistSize (getIndex size)) :
    ∃ lists', Orderly (s.returnToCentralCache t start size) lists' := by
  have hi := getIndex_lt hsize
  have hc := h.linked (.thread t (getIndex size)) start (by rw [System.head, hstart])
  by_cases hlen : (lists (.thread t (getIndex size))).length ≤
      max ((s.thread t).freelistSize (getIndex size) / 4) 1 - 1
  · rw [System.returnToCentralCache_of_short (splitNode_of_short hc hnull (by rwa [List.length_map]))]
    exact ⟨lists, h⟩
  obtain ⟨pre, q, rest, hlist, hpre⟩ := exists_split (lt_of_not_ge hlen)
  rw [hlist, List.map_append, List.map_cons] at hc
  have hq : q ∈ lists (.thread t (getIndex size)) := by simp [hlist]
  obtain ⟨hqnull, hqspace, hqword⟩ := h.placed.valid _ q hq
  have hclass := h.sized (.thread t (getIndex size)) _ rfl
  rw [System.returnToCentralCache_of_long (by omega)
    (splitNode_of_long hc (by rw [List.length_map, hpre])) hqnull]
  have hr : 0 < (s.thread t).freelistSize (getIndex size) -
    max ((s.thread t).freelistSize (getIndex size) / 4) 1 := by omega
  have hwithin := h.placed.separate.within (.thread t (getIndex size))
  rw [hlist] at hwithin
  have hapart := List.pairwise_append.mp hwithin
  have hpreq : ∀ a ∈ pre, Apart a q := fun a ha => hapart.2.2 a ha q List.mem_cons_self
  have hrestq : ∀ a ∈ rest, Apart a q := fun a ha => ((List.pairwise_cons.mp hapart.2.1).1 a ha).symm
  have hload : ∀ a, Apart a q → ∀ x, a ∈ lists x →
      load (store s.mem q.ptr null) a.ptr = load s.mem a.ptr := by
    intro a ha x hax
    exact load_store_block ha (h.placed.valid x a hax).2.2 hqword
  have hflight := h.flight_nil (t := t) (by rw [hpc]; rfl)
  have hplaced : Placed s.pages s.spent s.central.Tracks (Function.update (Function.update lists
      (.thread t (getIndex size)) (pre ++ [q])) (.flight t) rest) := by
    refine h.placed.exchange (by simp) (by simp) (by simp) ?_
    rw [hlist, hflight]
    simp [List.Subperm.refl]
  have hnext : Chain s.mem (load s.mem q.ptr) (rest.map Block.ptr) := hc.append_right
  have hrest : Chain (store s.mem q.ptr null) (load s.mem q.ptr) (rest.map Block.ptr) := by
    refine chain_blocks hnext fun a ha => ?_
    exact hload a (hrestq a ha) (.thread t (getIndex size)) (by simp [hlist, ha])
  have hkeep : Chain (store s.mem q.ptr null) start ((pre ++ [q]).map Block.ptr) := by
    rw [List.map_append]
    refine hc.relink (fun r hr => ?_) ?_
    · obtain ⟨a, ha, rfl⟩ := List.mem_map.mp hr
      exact hload a (hpreq a ha) (.thread t (getIndex size)) (by simp [hlist, ha])
    · rw [load_store (by decide)]
      rfl
  refine ⟨_, h.of_local (t := t) (i := getIndex size) hplaced (fun x hx hxf _ => ?_)
    (fun x hx _ _ b hb => ?_) (fun j hj => Function.update_of_ne hj _ _) ?_ ?_ ?_ (fun j hj => ?_)
    ?_ ?_⟩
  · rw [Function.update_of_ne hxf, Function.update_of_ne hx]
  · exact hload b (h.placed.separate.across x _ hx b hb q hq) x hb
  · simpa [ThreadCache.setList] using hkeep
  · intro b hb
    refine hclass b ?_
    have hb' : b ∈ pre ++ [q] := by simpa using hb
    simp only [hlist, List.mem_append, List.mem_cons, List.not_mem_nil, or_false] at hb' ⊢
    tauto
  · rw [Function.update_self]
    by_cases hnull' : load s.mem q.ptr = null
    · have hnil := hrest.nil_iff.mpr hnull'
      rw [hnil, if_neg fun hand => hand.2 hnull']
      rfl
    · rw [if_pos ⟨hr, hnull'⟩]
      exact hrest
  · intro b hb
    rw [Function.update_self] at hb
    have hj' : getIndex size = j := by
      split at hj
      · exact Option.some.inj hj
      · cases hj
    rw [← hj']
    exact hclass b (by simp [hlist, hb])
  · simpa using h.out
  · split
    · obtain ⟨a, pre', hpre'⟩ : ∃ a pre', pre = a :: pre' := by
        cases pre with
        | nil =>
          rw [List.length_nil] at hpre
          omega
        | cons a pre' => exact ⟨a, pre', rfl⟩
      have ha : a ∈ lists (.thread t (getIndex size)) := by simp [hlist, hpre']
      exact ⟨hi, h.spent_or_single hi (by simp) ha hq (hpreq a (by simp [hpre']))
        (hclass a ha) (hclass q hq)⟩
    · trivial

end Orderly

/-- What a call of `allocate` does up to its end or to a refill. -/
theorem System.allocate_cases {s' : System T} {r : ℕ} {answer : Option Ptr}
    (hcall : s.allocate t size r = (answer, s')) :
    (maxBytes < size ∧ answer = some r ∧
      s' = if r = null then s else { s with out := (r, size) :: s.out }) ∨
    (size ≤ maxBytes ∧ (s.thread t).freelist (getIndex size) ≠ null ∧
      answer = some ((s.thread t).freelist (getIndex size)) ∧
      s' = { s.setThread t ((s.thread t).setList (getIndex size)
          (load s.mem ((s.thread t).freelist (getIndex size)))
          (((s.thread t).freelistSize (getIndex size) + (2 ^ 64 - 1)) % 2 ^ 64)) .idle with
        out := ((s.thread t).freelist (getIndex size), size) :: s.out }) ∨
    (size ≤ maxBytes ∧ (s.thread t).freelist (getIndex size) = null ∧ answer = none ∧
      s' = s.setThread t ((s.thread t).setList (getIndex size) null
        (((s.thread t).freelistSize (getIndex size) + (2 ^ 64 - 1)) % 2 ^ 64)) (.fetch size)) := by
  unfold System.allocate at hcall
  dsimp only at hcall
  by_cases hlarge : maxBytes < size
  · rw [if_pos (maxBytes_lt_asked.mpr hlarge)] at hcall
    cases hcall
    exact .inl ⟨hlarge, rfl, rfl⟩
  rw [if_neg fun hlt => hlarge (maxBytes_lt_asked.mp hlt), getIndex_asked] at hcall
  have hsize : size ≤ maxBytes := not_lt.mp hlarge
  by_cases hp : (s.thread t).freelist (getIndex size) = null
  · rw [if_neg (not_not.mpr hp)] at hcall
    cases hcall
    rw [hp]
    exact .inr (.inr ⟨hsize, rfl, rfl, rfl⟩)
  · rw [if_pos hp] at hcall
    cases hcall
    exact .inr (.inl ⟨hsize, hp, rfl, rfl⟩)

namespace Orderly

/-- A call of `allocate` up to its end or to a refill. -/
theorem allocate (h : Orderly s lists) {s' : System T} {r : ℕ} {answer : Option Ptr}
    (hpc : s.pc t = .idle) (hr : ∀ q, answer = some q → s.Fresh r size)
    (hcall : s.allocate t size r = (answer, s')) :
    (∃ lists', Orderly s' lists') ∧
    ∀ q, answer = some q → q ≠ null → FromOut s (q, size) := by
  obtain ⟨hlarge, rfl, rfl⟩ | ⟨hsize, hp, rfl, rfl⟩ | ⟨hsize, hp, rfl, rfl⟩ :=
    System.allocate_cases hcall
  · by_cases hnull : r = null
    · rw [if_pos hnull]
      exact ⟨⟨lists, h⟩, fun q hq hne => absurd (hnull ▸ (Option.some.inj hq).symm) hne⟩
    · rw [if_neg hnull]
      obtain ⟨hfrom, horder⟩ := h.allocLarge hlarge hnull (hr r rfl)
      refine ⟨horder, fun q hq _ => ?_⟩
      rwa [← Option.some.inj hq]
  · obtain ⟨hfrom, horder⟩ := h.pop hpc hsize hp
      (((s.thread t).freelistSize (getIndex size) + (2 ^ 64 - 1)) % 2 ^ 64)
    refine ⟨horder, fun q hq _ => ?_⟩
    rwa [← Option.some.inj hq]
  · exact ⟨⟨lists, h.miss hsize hpc hp _⟩, fun q hq => by cases hq⟩

theorem deallocate (h : Orderly s lists) (hpc : s.pc t = .idle) (hp : (p, size) ∈ s.out) :
    ∃ lists', Orderly (s.deallocate t p size) lists' := by
  unfold System.deallocate
  dsimp only
  by_cases hlarge : maxBytes < size
  · rw [if_pos hlarge]
    exact h.freeLarge hp
  rw [if_neg hlarge]
  have hsize : size ≤ maxBytes := by omega
  obtain ⟨lists₁, h₁⟩ := h.push hpc hsize hp
    (((s.thread t).freelistSize (getIndex size) + 1) % 2 ^ 64)
  have hmem : extent (p, size) ∈ lists .out := by
    rw [h.out]
    exact List.mem_map_of_mem hp
  have hnull : p ≠ null := (h.placed.valid _ _ hmem).1
  split
  · rename_i hlong
    refine h₁.returnToCentralCache (t := t) (Function.update_self _ _ _) hsize ?_ hnull ?_
    · simp [ThreadCache.setList]
    · simpa [System.shouldReturnToCentralCache, ThreadCache.setList] using hlong
  · exact ⟨lists₁, h₁⟩

theorem finishFetch (h : Orderly s lists) {s' : System T} {start : ℕ}
    (hpc : s.pc t = .fetched start size) (hcall : s.finishFetch n t start size = some (p, s')) :
    (∃ lists', Orderly s' lists') ∧ (p ≠ null → FromOut s (p, size)) := by
  unfold System.finishFetch at hcall
  dsimp only at hcall
  by_cases hstart : start = null
  · rw [if_pos hstart] at hcall
    cases hcall
    exact ⟨⟨lists, h.finish_null (hstart ▸ hpc)⟩, fun hne => absurd rfl hne⟩
  · rw [if_neg hstart, Option.bind_eq_bind, Option.bind_eq_some_iff] at hcall
    obtain ⟨batchNum, -, hcall⟩ := hcall
    cases hcall
    obtain ⟨hfrom, horder⟩ := h.finish hpc hstart
      (((s.thread t).freelistSize (getIndex size) + batchNum) % 2 ^ 64)
    exact ⟨horder, fun _ => hfrom⟩

end Orderly

end Cache
end KvStore
