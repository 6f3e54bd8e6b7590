import KvStore.Cache.Exclusive
import KvStore.Cache.Frame
import KvStore.Cache.Trim

/-! The counts that a thread keeps of its lists. `allocate` counts a block off before it knows that
there is one; a refill that brings none does not count it on again. -/
namespace KvStore
open Memory

namespace Cache

/-- The class whose list a thread is about to refill. -/
def Pc.refills : Pc → Option ℕ
  | idle | returning _ _ _ => none
  | fetch size | fetched _ size => some (getIndex size)

/-- The central cache has a block of the class, or the page cache has pages for it. -/
def Caches.Supplies (c : Caches) (index : ℕ) (map : Ptr) : Prop :=
  c.central.centralFreelist index ≠ null ∨
    ∀ p, c.page.offer (numPages (blockSize index)) map = some p → p ≠ null

namespace System

variable {T : Type} [DecidableEq T]

/-- The block is on a free list of the thread. -/
def Listed (s : System T) (t : T) (i q : ℕ) : Prop :=
  ∃ ptrs, Chain s.mem ((s.thread t).freelist i) ptrs ∧ q ∈ ptrs

/-- The bytes have nothing in common with the links of the blocks on the lists of the threads. -/
def OffLists (s : System T) (b : Block) : Prop :=
  ∀ t i q, s.Listed t i q → Apart b ⟨q, wordBytes⟩

/-- The links of the blocks on the lists of the threads lie apart. -/
def ListsApart (s : System T) : Prop :=
  ∀ t i q t' i' q', s.Listed t i q → s.Listed t' i' q' → (t, i, q) ≠ (t', i', q') →
    Apart ⟨q, wordBytes⟩ ⟨q', wordBytes⟩

/-- Every thread that is in no call has for each class the length of its list as the count. -/
def Agrees (s : System T) : Prop :=
  ∀ t, s.pc t = .idle → ∀ i, ∃ ptrs, Chain s.mem ((s.thread t).freelist i) ptrs ∧
    (s.thread t).freelistSize i = ptrs.length

/-- The steps of threads and user code in which every refill is supplied and the blocks on the lists
of the threads are in use nowhere else: a block that is given back, the pages that a refill cuts and
what a return comes upon have nothing in common with them, and user code leaves their links alone. -/
inductive Careful : System T → System T → Prop
  | allocate {s s' : System T} {t : T} {size : ℕ} {r p : Ptr} (hpc : s.pc t = .idle)
      (hr : s.Fresh r size) (h : s.allocate t size r = (some p, s')) : Careful s s'
  | miss {s s' : System T} {t : T} {size : ℕ} {r : Ptr} (hpc : s.pc t = .idle)
      (h : s.allocate t size r = (none, s')) : Careful s s'
  | fetch {s s' : System T} {t : T} {size : ℕ} {node map : Ptr} (hpc : s.pc t = .fetch size)
      (hm : s.Fresh map (Caches.numPages (blockSize (getIndex size)) * pageSize))
      (hsupply : s.Supplies (getIndex size) map)
      (hspan : s.central.centralFreelist (getIndex size) = null → ∀ p,
        s.page.offer (Caches.numPages (blockSize (getIndex size))) map = some p →
          p < 256 ^ wordBytes ∧ s.OffLists (span (getIndex size) p))
      (h : s.callFetch t size node map = some s') : Careful s s'
  | fetched {s s' : System T} {t : T} {n size : ℕ} {start p : Ptr}
      (hpc : s.pc t = .fetched start size) (h : s.finishFetch n t start size = some (p, s')) :
      Careful s s'
  | deallocate {s : System T} {t : T} {p : Ptr} {size : ℕ} (hpc : s.pc t = .idle)
      (hp : (p, size) ∈ s.out) (hoff : size ≤ maxBytes → s.OffLists ⟨p, wordBytes⟩)
      (hcut : 256 ≤ (s.thread t).freelistSize (getIndex size) → s.ListsApart) :
      Careful s (s.deallocate t p size)
  | returned {s s' : System T} {t : T} {n : ℕ} {start : Ptr} {bytes index : ℕ} {t₀ now : ℤ}
      {arrange : List (ℕ × ℕ) → List (ℕ × ℕ)} (hpc : s.pc t = .returning start bytes index)
      (ha : ∀ l, (arrange l).Perm l)
      (hflight : ∀ r, Reach s.mem start r → s.OffLists ⟨r, wordBytes⟩)
      (hcentral : s.Delays start index t₀ →
        (∀ r, Reach s.mem (s.central.centralFreelist index) r → s.OffLists ⟨r, wordBytes⟩) ∧
        ∀ r r', s.Touched start index r → s.Touched start index r' → r ≠ r' →
          Apart ⟨r, wordBytes⟩ ⟨r', wordBytes⟩)
      (h : s.callReturn n t start bytes index t₀ now arrange = some s') : Careful s s'
  | write {s : System T} {mem' : ℕ → UInt8} (hw : s.Writes mem')
      (hlinks : ∀ t i q, s.Listed t i q → load mem' q = load s.mem q) :
      Careful s { s with mem := mem' }

/-- The states that such steps reach. -/
inductive CarefulRun : System T → Prop
  | start (mem : ℕ → UInt8) (now : ℕ → ℤ) : CarefulRun (start mem now)
  | step {s s' : System T} (h : CarefulRun s) (hs : Careful s s') : CarefulRun s'

/-- They are steps of the system. -/
theorem Careful.step {s s' : System T} (h : Careful s s') :
    ∃ label, Step (fun _ _ => True) s label s' := by
  cases h with
  | allocate hpc hr h => exact ⟨_, .allocate hpc hr h⟩
  | miss hpc h => exact ⟨_, .miss hpc h⟩
  | fetch hpc hm _ _ h => exact ⟨_, .fetch hpc trivial hm h⟩
  | fetched hpc h => exact ⟨_, .fetched hpc h⟩
  | deallocate hpc hp _ _ => exact ⟨_, .deallocate hpc hp⟩
  | returned hpc ha _ _ h => exact ⟨_, .returned hpc trivial ha h⟩
  | write hw _ => exact ⟨_, .write hw⟩

/-- The pointers of the caches and the threads are words, and no null pointer is handed out. -/
structure Words (s : System T) : Prop where
  thread : ∀ t i, (s.thread t).freelist i < 256 ^ wordBytes
  central : ∀ i, s.central.centralFreelist i < 256 ^ wordBytes
  start : ∀ t, (s.pc t).start < 256 ^ wordBytes
  out : ∀ b ∈ s.out, b.1 ≠ null ∧ b.1 < 256 ^ wordBytes

/-- Each list ends, and outside of a refill its length is the count. A list is empty during its
refill, and its count has gone below 0. -/
structure Balanced (s : System T) : Prop where
  lists : ∀ t i, ∃ ptrs, Chain s.mem ((s.thread t).freelist i) ptrs ∧
    ((s.pc t).refills ≠ some i → (s.thread t).freelistSize i = ptrs.length)
  waits : ∀ t i, (s.pc t).refills = some i →
    (s.thread t).freelist i = null ∧ (s.thread t).freelistSize i = 2 ^ 64 - 1
  sizes : ∀ t size, s.pc t = .fetch size → size ≤ maxBytes
  starts : ∀ t start size, s.pc t = .fetched start size → start ≠ null

omit [DecidableEq T] in
theorem Balanced.agrees {s : System T} (h : s.Balanced) : s.Agrees := by
  intro t hidle i
  obtain ⟨ptrs, hchain, hcount⟩ := h.lists t i
  refine ⟨ptrs, hchain, hcount ?_⟩
  rw [hidle]
  exact (Option.some_ne_none i).symm

section Steps

variable {s s' : System T} {t : T} {n size start p i : ℕ}

theorem callFetch_eq {node map : ℕ} (h : s.callFetch t size node map = some s') :
    ∃ start caches, s.fetchRange (getIndex size) node map = some (start, caches) ∧
      s'.toCaches = caches ∧ s'.thread = s.thread ∧
      s'.pc = Function.update s.pc t (.fetched start size) ∧ s'.out = s.out := by
  obtain ⟨⟨start, caches⟩, hfetch, h⟩ := Option.bind_eq_some_iff.mp h
  cases h
  exact ⟨start, caches, hfetch, rfl, rfl, rfl, rfl⟩

theorem finishFetch_cases (h : s.finishFetch n t start size = some (p, s')) :
    (start = null ∧ s' = s.setThread t (s.thread t) .idle) ∨
    start ≠ null ∧ ∃ batchNum, ThreadCache.countBlocks s.mem n start 0 = some batchNum ∧
      s' = { s.setThread t ((s.thread t).setList (getIndex size) (load s.mem start)
          (((s.thread t).freelistSize (getIndex size) + batchNum) % 2 ^ 64)) .idle with
        out := (start, size) :: s.out } := by
  unfold finishFetch at h
  dsimp only at h
  split_ifs at h with hnull
  · cases h
    exact .inl ⟨hnull, rfl⟩
  · obtain ⟨batchNum, hcount, h⟩ := Option.bind_eq_some_iff.mp h
    cases h
    exact .inr ⟨hnull, batchNum, hcount, rfl⟩

/-- A block goes on a list that stays short. -/
theorem deallocate_of_short (hsize : size ≤ maxBytes)
    (hshort : ((s.thread t).freelistSize (getIndex size) + 1) % 2 ^ 64 ≤ 256) :
    s.deallocate t p size = { s with
      mem := store s.mem p ((s.thread t).freelist (getIndex size))
      thread := Function.update s.thread t ((s.thread t).setList (getIndex size) p
        (((s.thread t).freelistSize (getIndex size) + 1) % 2 ^ 64))
      pc := Function.update s.pc t .idle
      out := s.out.erase (p, size) } := by
  rw [deallocate, if_neg (Nat.not_lt.mpr hsize)]
  dsimp only
  rw [if_neg]
  · rfl
  · simpa [shouldReturnToCentralCache, ThreadCache.setList] using hshort

theorem Words.of_thread (h : s.Words) {mem' : ℕ → UInt8} {pc' : Pc} {out' : List (Ptr × ℕ)}
    (hp : p < 256 ^ wordBytes) (hpc : pc'.start < 256 ^ wordBytes)
    (hout : ∀ b ∈ out', b.1 ≠ null ∧ b.1 < 256 ^ wordBytes) :
    Words { s with
      mem := mem', thread := Function.update s.thread t ((s.thread t).setList i p n)
      pc := Function.update s.pc t pc', out := out' } := by
  refine ⟨fun t' j => ?_, h.central, fun t' => ?_, hout⟩
  · dsimp only
    rw [Function.update_apply]
    split_ifs
    · dsimp only [ThreadCache.setList]
      rw [Function.update_apply]
      split_ifs
      · exact hp
      · exact h.thread t j
    · exact h.thread t' j
  · dsimp only
    rw [Function.update_apply]
    split_ifs
    · exact hpc
    · exact h.start t'

theorem null_lt : null < 256 ^ wordBytes := Nat.pow_pos (by decide)

/-- A step of a thread on its list of one class. -/
theorem Balanced.of_thread (h : s.Balanced) {mem' : ℕ → UInt8} {pc' : Pc} {out' : List (Ptr × ℕ)}
    {ptrs : List ℕ} (hold : ∀ j, (s.pc t).refills = some j → j = i)
    (hlinks : ∀ t' j q, (t', j) ≠ (t, i) → s.Listed t' j q → load mem' q = load s.mem q)
    (hlist : Chain mem' p ptrs) (hcount : pc'.refills ≠ some i → n = ptrs.length)
    (hwaits : ∀ j, pc'.refills = some j → j = i ∧ p = null ∧ n = 2 ^ 64 - 1)
    (hsizes : ∀ size, pc' = .fetch size → size ≤ maxBytes)
    (hstarts : ∀ start size, pc' = .fetched start size → start ≠ null) :
    Balanced { s with
      mem := mem', thread := Function.update s.thread t ((s.thread t).setList i p n)
      pc := Function.update s.pc t pc', out := out' } := by
  have hframe : ∀ t' j, (t', j) ≠ (t, i) → ∃ ptrs, Chain mem' ((s.thread t').freelist j) ptrs ∧
      ((s.pc t').refills ≠ some j → (s.thread t').freelistSize j = ptrs.length) := by
    intro t' j hne
    obtain ⟨ptrs, hchain, hcount⟩ := h.lists t' j
    exact ⟨ptrs, hchain.congr fun q hq => hlinks t' j q hne ⟨ptrs, hchain, hq⟩, hcount⟩
  refine ⟨fun t' j => ?_, fun t' j hj => ?_, fun t' size ht' => ?_, fun t' start size ht' => ?_⟩
  · by_cases ht : t' = t
    · rw [ht]
      dsimp only [ThreadCache.setList]
      rw [Function.update_self, Function.update_self]
      by_cases hj : j = i
      · rw [hj]
        dsimp only
        rw [Function.update_self, Function.update_self]
        exact ⟨ptrs, hlist, hcount⟩
      · dsimp only
        rw [Function.update_of_ne hj, Function.update_of_ne hj]
        obtain ⟨qs, hchain, hqs⟩ := hframe t j fun he => hj (Prod.mk.inj he).2
        exact ⟨qs, hchain, fun _ => hqs fun hr => hj (hold j hr)⟩
    · dsimp only
      rw [Function.update_of_ne ht, Function.update_of_ne ht]
      exact hframe t' j fun he => ht (Prod.mk.inj he).1
  · by_cases ht : t' = t
    · rw [ht] at hj ⊢
      dsimp only [ThreadCache.setList] at hj ⊢
      rw [Function.update_self] at hj ⊢
      obtain ⟨rfl, hp, hn⟩ := hwaits j hj
      exact ⟨(Function.update_self ..).trans hp, (Function.update_self ..).trans hn⟩
    · dsimp only at hj ⊢
      rw [Function.update_of_ne ht] at hj ⊢
      exact h.waits t' j hj
  · dsimp only at ht'
    rw [Function.update_apply] at ht'
    split_ifs at ht'
    · exact hsizes size ht'
    · exact h.sizes t' size ht'
  · dsimp only at ht'
    rw [Function.update_apply] at ht'
    split_ifs at ht'
    · exact hstarts start size ht'
    · exact h.starts t' start size ht'

/-- The thread is not about to refill its list afterwards. -/
theorem Balanced.of_thread_done (h : s.Balanced) {mem' : ℕ → UInt8} {pc' : Pc}
    {out' : List (Ptr × ℕ)} {ptrs : List ℕ} (hold : ∀ j, (s.pc t).refills = some j → j = i)
    (hlinks : ∀ t' j q, (t', j) ≠ (t, i) → s.Listed t' j q → load mem' q = load s.mem q)
    (hlist : Chain mem' p ptrs) (hcount : n = ptrs.length) (hdone : pc'.refills = none) :
    Balanced { s with
      mem := mem', thread := Function.update s.thread t ((s.thread t).setList i p n)
      pc := Function.update s.pc t pc', out := out' } := by
  refine h.of_thread hold hlinks hlist (fun _ => hcount) (fun j hj => ?_) (fun size hs => ?_)
    fun start size hs => ?_
  · rw [hdone] at hj
    cases hj
  · rw [hs] at hdone
    cases hdone
  · rw [hs] at hdone
    cases hdone

theorem Pc.of_idle {pc : Pc} (h : pc = .idle) : ∀ j, pc.refills = some j → j = i := by
  rw [h]
  intro j hj
  cases hj

omit [DecidableEq T] in
/-- A step of the caches, or of user code, that leaves the lists of the threads alone. -/
theorem Balanced.of_caches (h : s.Balanced) (hthread : s'.thread = s.thread)
    (hlinks : ∀ t i q, s.Listed t i q → load s'.mem q = load s.mem q)
    (hrefills : ∀ t, (s'.pc t).refills = (s.pc t).refills)
    (hsizes : ∀ t size, s'.pc t = .fetch size → size ≤ maxBytes)
    (hstarts : ∀ t start size, s'.pc t = .fetched start size → start ≠ null) : s'.Balanced := by
  refine ⟨fun t i => ?_, fun t i hi => ?_, hsizes, hstarts⟩
  · obtain ⟨ptrs, hchain, hcount⟩ := h.lists t i
    rw [hthread, hrefills]
    exact ⟨ptrs, hchain.congr fun q hq => hlinks t i q ⟨ptrs, hchain, hq⟩, hcount⟩
  · rw [hrefills] at hi
    rw [hthread]
    exact h.waits t i hi

/-- A list has less blocks than there are words. -/
theorem length_lt {mem : ℕ → UInt8} {ptrs : List ℕ} (h : Chain mem p ptrs)
    (hp : p < 256 ^ wordBytes) : ptrs.length < 256 ^ wordBytes := by
  have hlt : ∀ q ∈ ptrs, q < 256 ^ wordBytes := by
    induction ptrs generalizing p with
    | nil => simp
    | cons q qs ih =>
      rintro r hr
      obtain rfl | hr := List.mem_cons.mp hr
      · exact h.1 ▸ hp
      · exact ih h.2.2 (load_lt mem q) r hr
  have hsub : ptrs ⊆ List.range' 1 (256 ^ wordBytes - 1) := by
    intro q hq
    have hpos := Nat.pos_of_ne_zero (h.ne_zero hq)
    have hlt := hlt q hq
    refine List.mem_range'_1.mpr ⟨hpos, ?_⟩
    omega
  have hle := (List.subperm_of_subset h.nodup hsub).length_le
  rw [List.length_range'] at hle
  exact lt_of_le_of_lt hle (Nat.sub_lt null_lt Nat.one_pos)

/-- What the walk counts is the length of the list. -/
theorem chain_of_countBlocks {mem : ℕ → UInt8} {k m : ℕ}
    (h : ThreadCache.countBlocks mem n p k = some m) :
    ∃ ptrs, Chain mem p ptrs ∧ m = k + ptrs.length := by
  induction n generalizing p k with
  | zero => cases h
  | succ n ih =>
    rw [ThreadCache.countBlocks] at h
    split_ifs at h with hp
    · cases h
      exact ⟨[], hp, rfl⟩
    · obtain ⟨ptrs, hchain, hm⟩ := ih h
      refine ⟨p :: ptrs, ⟨rfl, hp, hchain⟩, ?_⟩
      rw [hm, List.length_cons]
      omega

/-- What holds of the pointers and the counts of the threads all along. -/
structure Sound (s : System T) : Prop where
  words : s.Words
  balanced : s.Balanced

namespace Sound

theorem allocate (h : s.Sound) {r : ℕ} {answer : Option Ptr} (hpc : s.pc t = .idle)
    (hr : ∀ q, answer = some q → s.Fresh r size) (hcall : s.allocate t size r = (answer, s')) :
    s'.Sound := by
  obtain ⟨-, rfl, rfl⟩ | ⟨hsize, hp, rfl, rfl⟩ | ⟨hsize, hp, rfl, rfl⟩ := allocate_cases hcall
  · split_ifs with hnull
    · exact h
    · have hlt : r < 256 ^ wordBytes := (Nat.le_add_right r size).trans_lt (hr r rfl hnull).1
      refine ⟨⟨h.words.thread, h.words.central, h.words.start, ?_⟩,
        ⟨h.balanced.lists, h.balanced.waits, h.balanced.sizes, h.balanced.starts⟩⟩
      exact List.forall_mem_cons.mpr ⟨⟨hnull, hlt⟩, h.words.out⟩
  · obtain ⟨ptrs, hchain, hcount⟩ := h.balanced.agrees t hpc (getIndex size)
    have hhead := h.words.thread t (getIndex size)
    have hlen := length_lt hchain hhead
    obtain ⟨rest, rfl, hrest⟩ := hchain.pop hp
    have hn : ((s.thread t).freelistSize (getIndex size) + (2 ^ 64 - 1)) % 2 ^ 64 = rest.length := by
      rw [hcount, List.length_cons]
      rw [List.length_cons] at hlen
      unfold wordBytes at hlen
      omega
    rw [hn]
    refine ⟨h.words.of_thread (load_lt _ _) null_lt ?_, h.balanced.of_thread_done (Pc.of_idle hpc)
      (fun _ _ _ _ _ => rfl) hrest rfl rfl⟩
    exact List.forall_mem_cons.mpr ⟨⟨hp, hhead⟩, h.words.out⟩
  · obtain ⟨ptrs, hchain, hcount⟩ := h.balanced.agrees t hpc (getIndex size)
    have hn : ((s.thread t).freelistSize (getIndex size) + (2 ^ 64 - 1)) % 2 ^ 64 = 2 ^ 64 - 1 := by
      rw [hcount, hchain.nil_iff.mpr hp]
      rfl
    have hnil : Chain s.mem null [] := rfl
    rw [hn]
    refine ⟨h.words.of_thread null_lt null_lt h.words.out,
      h.balanced.of_thread (Pc.of_idle hpc) (fun _ _ _ _ _ => rfl) hnil ?_ ?_ ?_ ?_⟩
    · exact fun hne => absurd rfl hne
    · intro j hj
      cases hj
      exact ⟨rfl, rfl, rfl⟩
    · intro size' hs
      cases hs
      exact hsize
    · intro start size' hs
      cases hs

/-- A call of the central cache by one thread. -/
theorem of_shared (h : s.Sound) {pc' : Pc} (hthread : s'.thread = s.thread)
    (hpc' : s'.pc = Function.update s.pc t pc') (hout : s'.out = s.out)
    (hlinks : ∀ t i q, s.Listed t i q → load s'.mem q = load s.mem q)
    (hcentral : ∀ j, s'.central.centralFreelist j < 256 ^ wordBytes)
    (hlt : pc'.start < 256 ^ wordBytes) (hrefills : pc'.refills = (s.pc t).refills)
    (hsizes : ∀ size, pc' ≠ .fetch size)
    (hstarts : ∀ start size, pc' = .fetched start size → start ≠ null) : s'.Sound := by
  refine ⟨⟨fun t' i => ?_, hcentral, fun t' => ?_, ?_⟩,
    h.balanced.of_caches hthread hlinks (fun t' => ?_) (fun t' size ht' => ?_)
      fun t' start size ht' => ?_⟩
  · rw [hthread]
    exact h.words.thread t' i
  · rw [hpc', Function.update_apply]
    split_ifs
    · exact hlt
    · exact h.words.start t'
  · rw [hout]
    exact h.words.out
  · rw [hpc', Function.update_apply]
    split_ifs with ht
    · rw [ht, hrefills]
    · rfl
  · rw [hpc', Function.update_apply] at ht'
    split_ifs at ht'
    · exact absurd ht' (hsizes size)
    · exact h.balanced.sizes t' size ht'
  · rw [hpc', Function.update_apply] at ht'
    split_ifs at ht'
    · exact hstarts start size ht'
    · exact h.balanced.starts t' start size ht'

theorem callFetch (h : s.Sound) {node map : ℕ} (hpc : s.pc t = .fetch size)
    (hsupply : s.Supplies (getIndex size) map)
    (hspan : s.central.centralFreelist (getIndex size) = null → ∀ p,
      s.page.offer (Caches.numPages (blockSize (getIndex size))) map = some p →
        p < 256 ^ wordBytes ∧ s.OffLists (span (getIndex size) p))
    (hcall : s.callFetch t size node map = some s') : s'.Sound := by
  obtain ⟨start, caches, hfetch, rfl, hthread, hpc', hout⟩ := callFetch_eq hcall
  have hi := getIndex_lt (h.balanced.sizes t size hpc)
  -- the thread gets a block, and the lists are as they were
  have hgot : start ≠ null ∧ start < 256 ^ wordBytes ∧
      (∀ t i q, s.Listed t i q → load s'.mem q = load s.mem q) ∧
      ∀ j, s'.central.centralFreelist j < 256 ^ wordBytes := by
    obtain ⟨hne, rfl, hsame⟩ | ⟨hempty, hoffer, hlinks, hlt⟩ :=
      Caches.fetchRange_frame hi h.words.central hfetch
    · refine ⟨hne, h.words.central _, fun t i q _ => ?_, fun j => ?_⟩
      · rw [hsame]
      · rw [hsame]
        exact h.words.central j
    · obtain ⟨hlt', hoff⟩ := hspan hempty start hoffer
      have hne := hsupply.resolve_left (not_not.mpr hempty) start hoffer
      exact ⟨hne, hlt', fun t i q hq => hlinks q (hoff t i q hq), hlt⟩
  obtain ⟨hne, hlt, hlinks, hcentral⟩ := hgot
  refine h.of_shared hthread hpc' hout hlinks hcentral hlt ?_ (fun size' hs => ?_)
    fun start' size' hs => ?_
  · rw [hpc]
    rfl
  · cases hs
  · cases hs
    exact hne

theorem finishFetch (h : s.Sound) (hpc : s.pc t = .fetched start size)
    (hcall : s.finishFetch n t start size = some (p, s')) : s'.Sound := by
  have hne := h.balanced.starts t start size hpc
  have hlt : start < 256 ^ wordBytes := by
    have hlt := h.words.start t
    rwa [hpc] at hlt
  obtain ⟨hnull, -⟩ | ⟨-, batchNum, hcount, rfl⟩ := finishFetch_cases hcall
  · exact absurd hnull hne
  obtain ⟨ptrs, hchain, hbatch⟩ := chain_of_countBlocks hcount
  have hlen := length_lt hchain hlt
  obtain ⟨rest, rfl, hrest⟩ := hchain.pop hne
  obtain ⟨-, hwaits⟩ := h.balanced.waits t (getIndex size) (by rw [hpc]; rfl)
  -- the count was one below 0
  have hn : ((s.thread t).freelistSize (getIndex size) + batchNum) % 2 ^ 64 = rest.length := by
    rw [hwaits, hbatch, List.length_cons]
    rw [List.length_cons] at hlen
    unfold wordBytes at hlen
    omega
  rw [hn]
  refine ⟨h.words.of_thread (load_lt _ _) null_lt ?_, h.balanced.of_thread_done (fun j hj => ?_)
    (fun _ _ _ _ _ => rfl) hrest rfl rfl⟩
  · exact List.forall_mem_cons.mpr ⟨⟨hne, hlt⟩, h.words.out⟩
  · rw [hpc] at hj
    exact (Option.some.inj hj).symm

theorem callReturn (h : s.Sound) {bytes : ℕ} {t₀ now : ℤ} {arrange : List (ℕ × ℕ) → List (ℕ × ℕ)}
    (hpc : s.pc t = .returning start bytes i)
    (hflight : ∀ r, Reach s.mem start r → s.OffLists ⟨r, wordBytes⟩)
    (hcentral : s.Delays start i t₀ →
      (∀ r, Reach s.mem (s.central.centralFreelist i) r → s.OffLists ⟨r, wordBytes⟩) ∧
      ∀ r r', s.Touched start i r → s.Touched start i r' → r ≠ r' →
        Apart ⟨r, wordBytes⟩ ⟨r', wordBytes⟩)
    (hcall : s.callReturn n t start bytes i t₀ now arrange = some s') : s'.Sound := by
  obtain ⟨caches, hreturn, hcall⟩ := Option.bind_eq_some_iff.mp hcall
  cases hcall
  have hlt : start < 256 ^ wordBytes := by
    have hlt := h.words.start t
    rwa [hpc] at hlt
  obtain ⟨hlinks, hheads⟩ := Caches.returnRange_frame h.words.central hlt
    (fun hd => (hcentral hd).2) hreturn
  refine h.of_shared rfl rfl rfl (fun t' j q hq => ?_) hheads null_lt ?_ (fun size' hs => ?_)
    fun start' size' hs => ?_
  · refine hlinks q (fun r hr => ?_) fun hd r hr => ?_
    · exact (hflight r hr t' j q hq).symm
    · exact ((hcentral hd).1 r hr t' j q hq).symm
  · rw [hpc]
    rfl
  · cases hs
  · cases hs

theorem deallocate (h : s.Sound) (hpc : s.pc t = .idle) (hp : (p, size) ∈ s.out)
    (hoff : size ≤ maxBytes → s.OffLists ⟨p, wordBytes⟩)
    (hcut : 256 ≤ (s.thread t).freelistSize (getIndex size) → s.ListsApart) :
    (s.deallocate t p size).Sound := by
  obtain ⟨hne, hlt⟩ := h.words.out _ hp
  have hout : ∀ b ∈ s.out.erase (p, size), b.1 ≠ null ∧ b.1 < 256 ^ wordBytes :=
    fun b hb => h.words.out b (List.mem_of_mem_erase hb)
  by_cases hlarge : maxBytes < size
  · rw [System.deallocate, if_pos hlarge]
    exact ⟨⟨h.words.thread, h.words.central, h.words.start, hout⟩,
      ⟨h.balanced.lists, h.balanced.waits, h.balanced.sizes, h.balanced.starts⟩⟩
  have hsize := Nat.not_lt.mp hlarge
  have hoff := hoff hsize
  obtain ⟨ptrs, hchain, hcount⟩ := h.balanced.agrees t hpc (getIndex size)
  have hhead := h.words.thread t (getIndex size)
  have hlinks : ∀ t' j q, s.Listed t' j q →
      load (store s.mem p ((s.thread t).freelist (getIndex size))) q = load s.mem q :=
    fun t' j q hq => load_store_of_apart (hoff t' j q hq).symm
  have hpush : Chain (store s.mem p ((s.thread t).freelist (getIndex size))) p (p :: ptrs) :=
    hchain.push hne hhead fun q hq => (hoff t _ q ⟨ptrs, hchain, hq⟩).symm
  have hlen : (p :: ptrs).length < 2 ^ 64 := length_lt hpush hlt
  have hn : ((s.thread t).freelistSize (getIndex size) + 1) % 2 ^ 64 = (p :: ptrs).length := by
    rw [hcount]
    exact Nat.mod_eq_of_lt hlen
  by_cases hlong : 256 < (p :: ptrs).length
  · have hapart := hcut (by rw [hcount]; exact Nat.le_of_lt_succ hlong)
    have hlisted : ∀ q ∈ ptrs, s.Listed t (getIndex size) q := fun q hq => ⟨ptrs, hchain, hq⟩
    have hwords : (p :: ptrs).Pairwise fun q r => Apart ⟨q, wordBytes⟩ ⟨r, wordBytes⟩ := by
      refine List.pairwise_cons.mpr ⟨fun q hq => hoff t _ q (hlisted q hq), ?_⟩
      refine hchain.nodup.pairwise_of_forall_ne fun q hq r hr hqr => ?_
      exact hapart t _ q t _ r (hlisted q hq) (hlisted r hr) fun he => hqr (by cases he; rfl)
    obtain ⟨mem', q, start, hq, -, hstart, rfl, heq, hkeep, -⟩ :=
      deallocate_of_long hsize hlong hlen hcount hchain hne hhead hwords
    rw [heq]
    refine ⟨h.words.of_thread hlt hstart hout,
      h.balanced.of_thread_done (Pc.of_idle hpc) ?_ hkeep ?_ rfl⟩
    · intro t' j r hj hr
      have hqr : Apart ⟨r, wordBytes⟩ ⟨q, wordBytes⟩ := by
        obtain rfl | hq := List.mem_cons.mp hq
        · exact (hoff t' j r hr).symm
        · refine hapart t' j r t _ q hr (hlisted q hq) fun he => hj ?_
          cases he
          rfl
      exact (load_store_of_apart hqr).trans (hlinks t' j r hr)
    · rw [List.length_take]
      exact (Nat.min_eq_left (keepNum_lt hlong).2.le).symm
  · rw [deallocate_of_short hsize (by rw [hn]; exact Nat.not_lt.mp hlong), hn]
    exact ⟨h.words.of_thread hlt null_lt hout, h.balanced.of_thread_done (Pc.of_idle hpc)
      (fun t' j q _ hq => hlinks t' j q hq) hpush rfl rfl⟩

omit [DecidableEq T] in
theorem write (h : s.Sound) {mem' : ℕ → UInt8}
    (hlinks : ∀ t i q, s.Listed t i q → load mem' q = load s.mem q) :
    Sound { s with mem := mem' } :=
  ⟨⟨h.words.thread, h.words.central, h.words.start, h.words.out⟩,
    h.balanced.of_caches rfl hlinks (fun _ => rfl) h.balanced.sizes h.balanced.starts⟩

/-- Every careful step keeps the counts. -/
theorem step (h : s.Sound) (hs : Careful s s') : s'.Sound := by
  cases hs with
  | allocate hpc hr hcall => exact h.allocate hpc (fun _ _ => hr) hcall
  | miss hpc hcall => exact h.allocate hpc (fun q hq => by cases hq) hcall
  | fetch hpc _ hsupply hspan hcall => exact h.callFetch hpc hsupply hspan hcall
  | fetched hpc hcall => exact h.finishFetch hpc hcall
  | deallocate hpc hp hoff hcut => exact h.deallocate hpc hp hoff hcut
  | returned hpc _ hflight hcentral hcall => exact h.callReturn hpc hflight hcentral hcall
  | write _ hlinks => exact h.write hlinks

end Sound

end Steps

omit [DecidableEq T] in
theorem Sound.start (mem : ℕ → UInt8) (now : ℕ → ℤ) : Sound (start mem now : System T) := by
  refine ⟨⟨fun _ _ => null_lt, fun _ => null_lt, fun _ => null_lt, fun b hb => nomatch hb⟩, ?_⟩
  refine ⟨fun t i => ⟨[], rfl, fun _ => rfl⟩, fun t i hi => ?_, fun t size ht => ?_,
    fun t start size ht => ?_⟩
  · cases hi
  · cases ht
  · cases ht

theorem CarefulRun.sound {s : System T} (h : CarefulRun s) : s.Sound := by
  induction h with
  | start mem now => exact .start mem now
  | step _ hs ih => exact ih.step hs

/-- They are runs of the system. -/
theorem CarefulRun.run {s : System T} (h : CarefulRun s) : Run (fun _ _ => True) s := by
  induction h with
  | start mem now => exact .start mem now
  | step _ hs ih =>
    obtain ⟨label, hstep⟩ := hs.step
    exact ih.step hstep

omit [DecidableEq T] in
/-- An empty list with the greatest `size_t` as its count. -/
theorem not_agrees_of_count {s : System T} {t : T} {i : ℕ} (hpc : s.pc t = .idle)
    (hlist : (s.thread t).freelist i = null) (hcount : (s.thread t).freelistSize i = 2 ^ 64 - 1) :
    ¬ s.Agrees := by
  intro hagrees
  obtain ⟨ptrs, hchain, hlen⟩ := hagrees t hpc i
  rw [hlist] at hchain
  rw [hcount, hchain.nil_iff.mpr rfl] at hlen
  cases hlen

/-- The first refill that is not supplied leaves the count of an empty list at the greatest
`size_t`. -/
theorem Sound.not_agrees {s s₁ s₂ : System T} {t : T} {size node map n p : ℕ} (h : s.Sound)
    (hpc : s.pc t = .fetch size) (hsupply : ¬ s.Supplies (getIndex size) map)
    (hfetch : s.callFetch t size node map = some s₁)
    (hfinish : s₁.finishFetch n t (s₁.pc t).start size = some (p, s₂)) :
    p = null ∧ (s₂.thread t).freelist (getIndex size) = null ∧
      (s₂.thread t).freelistSize (getIndex size) = 2 ^ 64 - 1 ∧ ¬ s₂.Agrees := by
  obtain ⟨hcentral, hoffer⟩ := not_or.mp hsupply
  have hempty := not_not.mp hcentral
  push Not at hoffer
  obtain ⟨q, hq, rfl⟩ := hoffer
  obtain ⟨start, caches, hrange, -, hthread, hpc', -⟩ := callFetch_eq hfetch
  have hnull : start = null := by
    obtain ⟨hne, -⟩ | ⟨-, hstart, -⟩ :=
      Caches.fetchRange_frame (getIndex_lt (h.balanced.sizes t size hpc)) h.words.central hrange
    · exact absurd hempty hne
    · exact Option.some.inj (hstart.symm.trans hq)
  obtain ⟨hlist, hcount⟩ := h.balanced.waits t (getIndex size) (by rw [hpc]; rfl)
  have hstart : (s₁.pc t).start = null := by
    rw [hpc', Function.update_self]
    exact hnull
  rw [hstart] at hfinish
  have hfinish : some (null, s₁.setThread t (s₁.thread t) .idle) = some (p, s₂) := hfinish
  cases hfinish
  have hsame : (s₁.setThread t (s₁.thread t) .idle).thread t = s.thread t :=
    (Function.update_self ..).trans (congrFun hthread t)
  have hlist' := congrArg (ThreadCache.freelist · (getIndex size)) hsame
  have hcount' := congrArg (ThreadCache.freelistSize · (getIndex size)) hsame
  exact ⟨rfl, hlist'.trans hlist, hcount'.trans hcount,
    not_agrees_of_count (Function.update_self ..) (hlist'.trans hlist) (hcount'.trans hcount)⟩

/-- While every refill is supplied and the blocks on the lists are in use nowhere else, the counts
are the lengths of the lists. The first refill that is not supplied ends this. -/
theorem freelistSize_agrees {s : System T} (hrun : CarefulRun s) : s.Agrees ∧
    ∀ {t : T} {size node map n p : ℕ} {s₁ s₂ : System T}, s.pc t = .fetch size →
      ¬ s.Supplies (getIndex size) map → s.callFetch t size node map = some s₁ →
      s₁.finishFetch n t (s₁.pc t).start size = some (p, s₂) →
      p = null ∧ (s₂.thread t).freelist (getIndex size) = null ∧
        (s₂.thread t).freelistSize (getIndex size) = 2 ^ 64 - 1 ∧ ¬ s₂.Agrees :=
  ⟨hrun.sound.balanced.agrees, hrun.sound.not_agrees⟩

end System

/-- A block of half a span is asked for, and the first thread cuts a span for it. -/
theorem careful_firstServed : System.CarefulRun firstServed := by
  have hlists : ∀ t i q, ¬ (twoThreads.allocate false 16384 null).2.Listed t i q := by
    rintro t i q ⟨ptrs, hchain, hq⟩
    have hhead : ((twoThreads.allocate false 16384 null).2.thread t).freelist i = null := by
      cases t
      · exact congrFun (Function.update_eq_self ..) i
      · rfl
    rw [hhead] at hchain
    rw [hchain.nil_iff.mpr rfl] at hq
    cases hq
  have hmiss : twoThreads.allocate false 16384 null =
      (none, (twoThreads.allocate false 16384 null).2) := rfl
  have hfetch : (twoThreads.allocate false 16384 null).2.callFetch false 16384 8 65536 =
      some (refilled twoThreads false 65536) := rfl
  have hserved : (refilled twoThreads false 65536).finishFetch 2 false 65536 16384 =
      some (65536, firstServed) := rfl
  have hrun : System.CarefulRun (twoThreads.allocate false 16384 null).2 :=
    (System.CarefulRun.start _ _).step (.miss rfl hmiss)
  refine (hrun.step (.fetch rfl ?_ (.inr ?_) (fun _ p hp => ?_) hfetch)).step (.fetched rfl hserved)
  · exact fun _ => ⟨by decide, by decide⟩
  · rintro p hp rfl
    cases hp
  · cases hp
    exact ⟨by decide, fun t i q hq => absurd hq (hlists t i q)⟩

/-- A thread asks for eight bytes, and there are no blocks and no pages for it. -/
def unsupplied (s : System Bool) (t : Bool) : System Bool :=
  ((s.allocate t 8 null).2.callFetch t 8 8 null).getD s

/-- The end of that request. -/
def refused (s : System Bool) (t : Bool) : System Bool :=
  (((unsupplied s t).finishFetch 0 t null 8).map (·.2)).getD s

theorem System.freelistSize_agrees_firstServed :
    (firstServed.Agrees ∧ ((firstServed.thread false).freelistSize 2047 = 0)) ∧
      ((refused firstServed true).thread true).freelistSize 0 = 2 ^ 64 - 1 ∧
      ¬ (refused firstServed true).Agrees := by
  have hmiss : firstServed.allocate true 8 null = (none, (firstServed.allocate true 8 null).2) := rfl
  have hfetch : (firstServed.allocate true 8 null).2.callFetch true 8 8 null =
      some (unsupplied firstServed true) := rfl
  have hrefused : (unsupplied firstServed true).finishFetch 0 true null 8 =
      some (null, refused firstServed true) := rfl
  have hsupply : ¬ (firstServed.allocate true 8 null).2.Supplies (getIndex 8) null :=
    not_or.mpr ⟨not_not.mpr rfl, fun hoffer => hoffer null rfl rfl⟩
  obtain ⟨-, -, hcount, hnot⟩ := (System.freelistSize_agrees
    (careful_firstServed.step (.miss rfl hmiss))).2 rfl hsupply hfetch hrefused
  exact ⟨⟨(System.freelistSize_agrees careful_firstServed).1, rfl⟩, hcount, hnot⟩

/-- The first call of `allocate` finds no pages. -/
theorem allocate_miscounts : System.Run (fun _ _ => True) (refused twoThreads false) ∧
    (refused twoThreads false).pc false = .idle ∧
    ((refused twoThreads false).thread false).freelist 0 = null ∧
    ((refused twoThreads false).thread false).freelistSize 0 = 2 ^ 64 - 1 ∧
    ¬ (refused twoThreads false).Agrees := by
  have hmiss : twoThreads.allocate false 8 null = (none, (twoThreads.allocate false 8 null).2) := rfl
  have hfetch : (twoThreads.allocate false 8 null).2.callFetch false 8 8 null =
      some (unsupplied twoThreads false) := rfl
  have hrefused : (unsupplied twoThreads false).finishFetch 0 false null 8 =
      some (null, refused twoThreads false) := rfl
  have hrun : System.Run (fun _ _ => True) (refused twoThreads false) :=
    (((System.Run.start _ _).step (.miss rfl hmiss)).step
      (.fetch rfl trivial (fun hne => absurd rfl hne) hfetch)).step (.fetched rfl hrefused)
  have hempty : ((refused twoThreads false).thread false).freelist 0 = null := rfl
  have hcount : ((refused twoThreads false).thread false).freelistSize 0 = 2 ^ 64 - 1 := rfl
  exact ⟨hrun, rfl, hempty, hcount, System.not_agrees_of_count rfl hempty hcount⟩

end Cache
end KvStore
