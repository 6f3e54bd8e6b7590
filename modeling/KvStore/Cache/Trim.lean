import KvStore.Cache.Delayed

/-! A thread gives a part of a long list back to the central cache. The bytes of the blocks it gives
back are reckoned with `roundUp`, which is 0 for the size 0, and the central cache gets the number
of blocks from the bytes. -/
namespace KvStore
open Memory

namespace Cache
open Caches

variable {T : Type} [DecidableEq T] {s s' : System T} {t : T} {ptr start bytes size i k p : ℕ}
  {ptrs central : List ℕ}

/-- The blocks of a list of `n` blocks that a thread keeps. -/
def keepNum (n : ℕ) : ℕ := max (n / 4) 1

/-- The thread's list of a class has its count, with the block that is given back it is longer than
256 blocks, and its blocks lie apart in the address space. -/
structure System.Overfull (s : System T) (t : T) (ptr size : ℕ) (ptrs : List ℕ) : Prop where
  size_le : size ≤ maxBytes
  list : Chain s.mem ((s.thread t).freelist (getIndex size)) ptrs
  count : (s.thread t).freelistSize (getIndex size) = ptrs.length
  long : 256 < (ptr :: ptrs).length
  ptr_ne : ptr ≠ null
  apart : (ptr :: ptrs).Pairwise fun p q =>
    Apart ⟨p, blockSize (getIndex size)⟩ ⟨q, blockSize (getIndex size)⟩
  space : ∀ q ∈ ptr :: ptrs, q + blockSize (getIndex size) ≤ 256 ^ wordBytes

/-- Other threads may have run since: the thread is where it was, and so are the links of its
blocks. The central list of the class has blocks apart from these. -/
structure System.Undisturbed (s s' : System T) (t : T) (i : ℕ) (ptrs central : List ℕ) : Prop where
  thread : s'.thread t = s.thread t
  pc : s'.pc t = s.pc t
  links : ∀ q ∈ ptrs, load s'.mem q = load s.mem q
  list : Chain s'.mem (s'.central.centralFreelist i) central
  apart : (ptrs ++ central).Pairwise fun p q => Apart ⟨p, blockSize i⟩ ⟨q, blockSize i⟩
  space : ∀ q ∈ central, q + blockSize i ≤ 256 ^ wordBytes

/-- The thread calls `returnRange`, and when that has put its blocks on the central list, the thread
keeps the first blocks of the list in their order and counts them, and the others are in their order
in front of what the central list was. -/
structure System.Divided (s : System T) (t : T) (start bytes i : ℕ) (ptrs central : List ℕ) :
    Prop where
  waits : s.pc t = .returning start bytes i
  call : ∀ n t₀ now arrange, s.returnRange n start bytes i t₀ now arrange =
    if s.central.shouldPerformDelayReturn i (s.central.delayCounts i + 1) t₀ then
      (s.pushed start bytes i).performDelayReturn n i now arrange
    else some (s.pushed start bytes i)
  kept : Chain (s.pushed start bytes i).mem ((s.thread t).freelist i)
    (ptrs.take (keepNum ptrs.length))
  count : (s.thread t).freelistSize i = keepNum ptrs.length
  returned : Chain (s.pushed start bytes i).mem
    ((s.pushed start bytes i).central.centralFreelist i)
    (ptrs.drop (keepNum ptrs.length) ++ central)
  once : (ptrs.take (keepNum ptrs.length) ++
    (ptrs.drop (keepNum ptrs.length) ++ central)).Nodup

theorem keepNum_lt {n : ℕ} (h : 256 < n) : 0 < keepNum n ∧ keepNum n < n := by
  unfold keepNum
  omega

/-- Blocks of a class that lie apart do so with their links. -/
theorem words_of_blocks (h : ptrs.Pairwise fun p q => Apart ⟨p, blockSize i⟩ ⟨q, blockSize i⟩) :
    ptrs.Pairwise fun p q => Apart ⟨p, wordBytes⟩ ⟨q, wordBytes⟩ :=
  h.imp fun hpq => hpq.words (wordBytes_le_blockSize i) (wordBytes_le_blockSize i)

theorem nodup_of_apart (h : ptrs.Pairwise fun p q => Apart ⟨p, wordBytes⟩ ⟨q, wordBytes⟩) :
    ptrs.Nodup :=
  h.imp fun hpq => hpq.ptr_ne (Nat.succ_pos 7) (Nat.succ_pos 7)

theorem roundUp_eq (hsize : size ≠ 0) : roundUp size = blockSize (getIndex size) := by
  unfold roundUp blockSize getIndex alignment
  omega

/-- The blocks of a class in the address space can be counted in bytes. -/
theorem length_lt_of_space
    (h : ptrs.Pairwise fun p q => Apart ⟨p, blockSize i⟩ ⟨q, blockSize i⟩)
    (hspace : ∀ q ∈ ptrs, q + blockSize i ≤ 256 ^ wordBytes) : ptrs.length < 2 ^ 64 := by
  have hle := length_mul_le h hspace
  have hword := Nat.mul_le_mul_left ptrs.length (wordBytes_le_blockSize i)
  unfold wordBytes at *
  omega

theorem head_lt_of_space {mem : ℕ → UInt8} (h : Chain mem p ptrs)
    (hspace : ∀ q ∈ ptrs, q + blockSize i ≤ 256 ^ wordBytes) : p < 256 ^ wordBytes := by
  cases ptrs with
  | nil => exact h ▸ Nat.pow_pos (by decide)
  | cons q qs =>
    rw [h.1]
    have hword : 0 < blockSize i := lt_of_lt_of_le (by decide) (wordBytes_le_blockSize i)
    exact (Nat.lt_add_of_pos_right hword).trans_le (hspace q List.mem_cons_self)

/-- The walk over all blocks of a chain ends at the last one. -/
theorem walkEnd_eq_last {mem : ℕ → UInt8} {qs : List ℕ} {q : ℕ} (h : Chain mem p (qs ++ [q]))
    (hk : qs.length = k) : walkEnd mem k p = q := by
  subst hk
  induction qs generalizing p with
  | nil => exact h.1
  | cons r qs ih =>
    obtain ⟨rfl, -, hqs⟩ := h
    have hne : load mem p ≠ null := by
      cases qs with
      | nil => exact hqs.1 ▸ hqs.2.1
      | cons y qs => exact hqs.1 ▸ hqs.2.1
    rw [List.length_cons, walkEnd, if_pos hne]
    exact ih hqs

/-- The state in which a list of `n` blocks is cut. -/
def System.beforeCut (s : System T) (t : T) (ptr size n : ℕ) : System T :=
  { ({ s with out := s.out.erase (ptr, size) } : System T).setThread t
      ((s.thread t).setList (getIndex size) ptr n) .idle with
    mem := store s.mem ptr ((s.thread t).freelist (getIndex size)) }

theorem deallocate_eq (hsize : size ≤ maxBytes) (hlong : 256 < (ptr :: ptrs).length)
    (hlt : (ptr :: ptrs).length < 2 ^ 64)
    (hcount : (s.thread t).freelistSize (getIndex size) = ptrs.length) : s.deallocate t ptr size =
    (s.beforeCut t ptr size (ptr :: ptrs).length).returnToCentralCache t ptr size := by
  have hnext : ((s.thread t).freelistSize (getIndex size) + 1) % 2 ^ 64 = (ptr :: ptrs).length := by
    rw [hcount]
    exact Nat.mod_eq_of_lt hlt
  rw [System.deallocate, if_neg (Nat.not_lt.mpr hsize)]
  dsimp only
  rw [hnext, if_pos]
  · rfl
  · simpa [System.shouldReturnToCentralCache, ThreadCache.setList] using hlong

/-- A list that gets too long is cut behind the blocks that the thread keeps, and the thread goes to
return the others. -/
theorem deallocate_of_long (hsize : size ≤ maxBytes) (hlong : 256 < (ptr :: ptrs).length)
    (hlt : (ptr :: ptrs).length < 2 ^ 64)
    (hcount : (s.thread t).freelistSize (getIndex size) = ptrs.length)
    (hlist : Chain s.mem ((s.thread t).freelist (getIndex size)) ptrs) (hptr : ptr ≠ null)
    (hhead : (s.thread t).freelist (getIndex size) < 256 ^ wordBytes)
    (hwords : (ptr :: ptrs).Pairwise fun p q => Apart ⟨p, wordBytes⟩ ⟨q, wordBytes⟩) :
    ∃ mem' q start, q ∈ ptr :: ptrs ∧ start ≠ null ∧ start < 256 ^ wordBytes ∧
      mem' = store (store s.mem ptr ((s.thread t).freelist (getIndex size))) q null ∧
      s.deallocate t ptr size = { s with
        mem := mem'
        thread := Function.update s.thread t
          ((s.thread t).setList (getIndex size) ptr (keepNum (ptr :: ptrs).length))
        pc := Function.update s.pc t (.returning start
          (((ptr :: ptrs).length - keepNum (ptr :: ptrs).length) * roundUp size % 2 ^ 64)
          (getIndex size))
        out := s.out.erase (ptr, size) } ∧
      Chain mem' ptr ((ptr :: ptrs).take (keepNum (ptr :: ptrs).length)) ∧
      Chain mem' start ((ptr :: ptrs).drop (keepNum (ptr :: ptrs).length)) := by
  have hpush : Chain (store s.mem ptr ((s.thread t).freelist (getIndex size))) ptr (ptr :: ptrs) :=
    hlist.push hptr hhead fun r hr => ((List.pairwise_cons.mp hwords).1 r hr).symm
  rw [deallocate_eq hsize hlong hlt hcount]
  set n := (ptr :: ptrs).length with hn
  obtain ⟨hk, hkn⟩ := keepNum_lt hlong
  obtain ⟨pre, q, rest, hsplit, hpre⟩ := exists_split (l := ptr :: ptrs) (k := keepNum n - 1) (by omega)
  rw [hsplit] at hpush hwords
  obtain ⟨hkeep, hrest⟩ := hpush.cut hwords
  have hparts : ptr :: ptrs = (pre ++ [q]) ++ rest := by
    rw [hsplit, List.append_assoc, List.singleton_append]
  have hprelen : (pre ++ [q]).length = keepNum n := by
    rw [List.length_append, List.length_singleton, hpre]
    omega
  have htake : (ptr :: ptrs).take (keepNum n) = pre ++ [q] := by
    rw [hparts, List.take_left' hprelen]
  have hdrop : (ptr :: ptrs).drop (keepNum n) = rest := by
    rw [hparts, List.drop_left' hprelen]
  have hrestlen : rest.length = n - keepNum n := by
    rw [← hdrop, List.length_drop]
  have hnext : load (store s.mem ptr ((s.thread t).freelist (getIndex size))) q ≠ null := by
    intro hnull
    have hnil := hrest.nil_iff.mpr hnull
    rw [hnil, List.length_nil] at hrestlen
    omega
  have hsize' : ((s.beforeCut t ptr size n).thread t).freelistSize (getIndex size) = n := by
    simp [System.beforeCut, System.setThread, ThreadCache.setList]
  refine ⟨_, q, load (store s.mem ptr ((s.thread t).freelist (getIndex size))) q, ?_, hnext,
    load_lt _ _, rfl, ?_, ?_, ?_⟩
  · rw [hsplit]
    simp
  · rw [System.returnToCentralCache_of_long (q := q) (r := n - keepNum n)]
    · rw [hsize', if_pos ⟨by omega, hnext⟩]
      simp [System.beforeCut, System.setThread, ThreadCache.setList, keepNum]
    · rw [hsize']
      omega
    · rw [hsize']
      exact splitNode_of_long hpush hpre
    · exact hpush.ne_zero (by simp)
  · rw [htake]
    exact hkeep
  · rw [hdrop]
    exact hrest

namespace System.Overfull

/-- The thread keeps the first blocks of the list and goes to return the others. -/
theorem deallocate (h : s.Overfull t ptr size ptrs) : ∃ start, start ≠ null ∧
    (s.deallocate t ptr size).pc t = .returning start
      (((ptr :: ptrs).length - keepNum (ptr :: ptrs).length) * roundUp size % 2 ^ 64)
      (getIndex size) ∧
    ((s.deallocate t ptr size).thread t).freelist (getIndex size) = ptr ∧
    ((s.deallocate t ptr size).thread t).freelistSize (getIndex size) =
      keepNum (ptr :: ptrs).length ∧
    Chain (s.deallocate t ptr size).mem ptr ((ptr :: ptrs).take (keepNum (ptr :: ptrs).length)) ∧
    Chain (s.deallocate t ptr size).mem start
      ((ptr :: ptrs).drop (keepNum (ptr :: ptrs).length)) := by
  have hhead := head_lt_of_space h.list fun q hq => h.space q (List.mem_cons_of_mem ptr hq)
  obtain ⟨mem', q, start, -, hstart, -, -, heq, hkeep, hrest⟩ := deallocate_of_long h.size_le h.long
    (length_lt_of_space h.apart h.space) h.count h.list h.ptr_ne hhead (words_of_blocks h.apart)
  rw [heq]
  refine ⟨start, hstart, ?_, ?_, ?_, hkeep, hrest⟩
  · exact Function.update_self ..
  · simp [ThreadCache.setList]
  · simp [ThreadCache.setList]

end System.Overfull

/-- `returnRange` writes into the blocks of its chain only. -/
theorem load_pushed {c : Caches} {rest : List ℕ} (h : Chain c.mem start rest) (hstart : start ≠ null)
    {r : ℕ} (hr : ∀ q ∈ rest, Apart ⟨r, wordBytes⟩ ⟨q, wordBytes⟩) :
    load (c.pushed start bytes i).mem r = load c.mem r := by
  obtain ⟨pre, post, hsplit⟩ := walkEnd_mem h hstart (bytes / blockSize i - 1)
  apply load_store_of_apart
  apply hr
  rw [hsplit]
  simp

/-- With the number of its blocks the whole chain goes in front of the central list. -/
theorem pushed_whole {c : Caches} {rest : List ℕ} (h : Chain c.mem start rest)
    (hstart : start ≠ null) (hbytes : bytes / blockSize i = rest.length)
    (hc : Chain c.mem (c.central.centralFreelist i) central)
    (hlt : c.central.centralFreelist i < 256 ^ wordBytes)
    (hw : (rest ++ central).Pairwise fun p q => Apart ⟨p, wordBytes⟩ ⟨q, wordBytes⟩) :
    Chain (c.pushed start bytes i).mem start (rest ++ central) := by
  obtain ⟨pre, q, rfl⟩ : ∃ pre q, rest = pre ++ [q] := by
    have hne : rest ≠ [] := fun hnil => hstart (h.nil_iff.mp hnil)
    exact ⟨rest.dropLast, rest.getLast hne, (List.dropLast_append_getLast hne).symm⟩
  have hlast : walkEnd c.mem (bytes / blockSize i - 1) start = q := by
    apply walkEnd_eq_last h
    rw [hbytes]
    simp
  rw [List.append_assoc, List.singleton_append] at hw ⊢
  rw [pushed, hlast]
  exact h.join hc hlt hw

/-- With no bytes only the first block of the chain goes there. -/
theorem pushed_zero {c : Caches} (hstart : start ≠ null)
    (hc : Chain c.mem (c.central.centralFreelist i) central)
    (hlt : c.central.centralFreelist i < 256 ^ wordBytes)
    (hw : (start :: central).Pairwise fun p q => Apart ⟨p, wordBytes⟩ ⟨q, wordBytes⟩) :
    Chain (c.pushed start 0 i).mem start (start :: central) := by
  have hlast : walkEnd c.mem (0 / blockSize i - 1) start = start := by
    rw [Nat.zero_div]
    rfl
  rw [pushed, hlast]
  exact hc.push hstart hlt fun r hr => ((List.pairwise_cons.mp hw).1 r hr).symm

/-- Before the call of `returnRange`. -/
theorem System.Overfull.waits (h : s.Overfull t ptr size ptrs)
    (h' : (s.deallocate t ptr size).Undisturbed s' t (getIndex size) (ptr :: ptrs) central) :
    ∃ start, start ≠ null ∧
      s'.pc t = .returning start
        (((ptr :: ptrs).length - keepNum (ptr :: ptrs).length) * roundUp size % 2 ^ 64)
        (getIndex size) ∧
      (s'.thread t).freelist (getIndex size) = ptr ∧
      (s'.thread t).freelistSize (getIndex size) = keepNum (ptr :: ptrs).length ∧
      Chain s'.mem ptr ((ptr :: ptrs).take (keepNum (ptr :: ptrs).length)) ∧
      Chain s'.mem start ((ptr :: ptrs).drop (keepNum (ptr :: ptrs).length)) ∧
      ((ptr :: ptrs).take (keepNum (ptr :: ptrs).length) ++
        ((ptr :: ptrs).drop (keepNum (ptr :: ptrs).length) ++ central)).Pairwise
          fun p q => Apart ⟨p, wordBytes⟩ ⟨q, wordBytes⟩ := by
  obtain ⟨start, hstart, hpc, hlist, hcount, hkept, hrest⟩ := h.deallocate
  refine ⟨start, hstart, ?_, ?_, ?_, ?_, ?_, ?_⟩
  · rw [h'.pc, hpc]
  · rw [h'.thread, hlist]
  · rw [h'.thread, hcount]
  · exact hkept.congr fun q hq => h'.links q (List.mem_of_mem_take hq)
  · exact hrest.congr fun q hq => h'.links q (List.mem_of_mem_drop hq)
  · rw [← List.append_assoc, List.take_append_drop]
    exact words_of_blocks h'.apart

theorem System.Overfull.divided (h : s.Overfull t ptr size ptrs)
    (h' : (s.deallocate t ptr size).Undisturbed s' t (getIndex size) (ptr :: ptrs) central)
    (hsize : size ≠ 0) :
    ∃ start bytes, s'.Divided t start bytes (getIndex size) (ptr :: ptrs) central := by
  obtain ⟨start, hstart, hpc, hlist, hcount, hkept, hrest, hwords⟩ := h.waits h'
  have hbytes := length_mul_le h.apart h.space
  obtain ⟨hkpos, hklt⟩ := keepNum_lt h.long
  obtain ⟨-, hback, hcross⟩ := List.pairwise_append.mp hwords
  have hpos : 0 < blockSize (getIndex size) :=
    lt_of_lt_of_le (by decide) (wordBytes_le_blockSize (getIndex size))
  have hfit : ((ptr :: ptrs).length - keepNum (ptr :: ptrs).length) * blockSize (getIndex size) <
      2 ^ 64 := by
    have hless := Nat.sub_lt (Nat.zero_lt_of_lt hklt) hkpos
    exact (Nat.mul_lt_mul_of_pos_right hless hpos).trans_le hbytes
  have hwhole : ((ptr :: ptrs).length - keepNum (ptr :: ptrs).length) * roundUp size % 2 ^ 64 /
      blockSize (getIndex size) = ((ptr :: ptrs).drop (keepNum (ptr :: ptrs).length)).length := by
    rw [roundUp_eq hsize, Nat.mod_eq_of_lt hfit, Nat.mul_div_cancel _ hpos, List.length_drop]
  refine ⟨start, _, hpc, ?_, ?_, hcount, ?_, nodup_of_apart hwords⟩
  · intro n t₀ now arrange
    rw [returnRange_eq, if_neg]
    exact not_or.mpr ⟨hstart, Nat.not_le.mpr (getIndex_lt h.size_le)⟩
  · rw [hlist]
    refine hkept.congr fun r hr => load_pushed hrest hstart fun q hq => ?_
    exact hcross r hr q (List.mem_append_left central hq)
  · rw [pushed_centralFreelist]
    exact pushed_whole hrest hstart hwhole h'.list (head_lt_of_space h'.list h'.space) hback

/-- The size 0 makes the blocks that are given back no bytes, and all but the first are lost. -/
theorem System.Overfull.not_divided (h : s.Overfull t ptr 0 ptrs)
    (h' : (s.deallocate t ptr 0).Undisturbed s' t (getIndex 0) (ptr :: ptrs) central) :
    ¬ ∃ start bytes, s'.Divided t start bytes (getIndex 0) (ptr :: ptrs) central := by
  rintro ⟨start', bytes', hd⟩
  obtain ⟨start, hstart, hpc, -, -, -, hrest, hwords⟩ := h.waits h'
  have hlong := h.long
  have hround : roundUp 0 = 0 := rfl
  have hwaits := hd.waits
  rw [hpc, hround, Nat.mul_zero, Nat.zero_mod] at hwaits
  obtain ⟨rfl, rfl, -⟩ := Pc.returning.inj hwaits
  have hreturned := hd.returned
  rw [pushed_centralFreelist] at hreturned
  obtain ⟨-, hback, -⟩ := List.pairwise_append.mp hwords
  obtain ⟨rest, hcons, -⟩ := hrest.pop hstart
  have hfirst : (start :: central).Pairwise fun p q => Apart ⟨p, wordBytes⟩ ⟨q, wordBytes⟩ := by
    rw [hcons] at hback
    refine hback.sublist ?_
    simp
  have hzero := pushed_zero hstart h'.list (head_lt_of_space h'.list h'.space) hfirst
  have hlen := congrArg List.length (hreturned.unique hzero)
  -- at least three quarters of the list were to go there
  have hquarter : keepNum (ptr :: ptrs).length ≤ (ptr :: ptrs).length / 4 + 1 :=
    max_le (Nat.le_succ _) (Nat.succ_le_succ (Nat.zero_le _))
  rw [List.length_append, List.length_drop] at hlen
  have htail : (start :: central).length = central.length + 1 := rfl
  omega

/-- The list is divided as it should be exactly when the size that is given back is not 0. -/
theorem System.Overfull.divided_iff (h : s.Overfull t ptr size ptrs)
    (h' : (s.deallocate t ptr size).Undisturbed s' t (getIndex size) (ptr :: ptrs) central) :
    (∃ start bytes, s'.Divided t start bytes (getIndex size) (ptr :: ptrs) central) ↔
      size ≠ 0 := by
  constructor
  · rintro hd rfl
    exact h.not_divided h' hd
  · exact h.divided h'

/-- A thread has 256 blocks of eight bytes, and the central list of their class is empty. -/
def longList : System Unit :=
  { System.start (T := Unit) (fun _ => 0) fun _ => 0 with
    mem := store (linkCells (fun _ => 0) 8192 8 255) (8192 + 255 * 8) null
    thread := fun _ => ⟨fun _ => 8192, fun _ => 256⟩ }

theorem getIndex_of_le (h : size ≤ 8) : getIndex size = 0 := by
  unfold getIndex alignment
  omega

theorem apart_longList :
    (4096 :: cells 8192 8 0 256).Pairwise fun p q => Apart ⟨p, blockSize 0⟩ ⟨q, blockSize 0⟩ := by
  refine List.pairwise_cons.mpr ⟨fun q hq => ?_, cells_pairwise 8192 8 0 256⟩
  obtain ⟨j, -, -, rfl⟩ := mem_cells.mp hq
  exact .inl (le_trans (by decide) (Nat.le_add_right 8192 (j * 8)))

theorem overfull_longList (h : size ≤ 8) :
    longList.Overfull () 4096 size (cells 8192 8 0 256) := by
  have hi := getIndex_of_le h
  refine ⟨h.trans (by decide), ?_, by simp [longList, cells], by simp [cells], by decide, ?_, ?_⟩
  · exact chain_linkCells (by decide) (by decide) (by decide)
  · rw [hi]
    exact apart_longList
  · intro q hq
    rw [hi]
    obtain rfl | hq := List.mem_cons.mp hq
    · decide
    · obtain ⟨j, -, hj, rfl⟩ := mem_cells.mp hq
      have hbytes : blockSize 0 = 8 := rfl
      have hspace : 2 ^ 16 ≤ 256 ^ wordBytes := by decide
      rw [hbytes]
      omega

theorem deallocate_central (s : System T) (t : T) (ptr size : ℕ) :
    (s.deallocate t ptr size).central = s.central := by
  unfold System.deallocate System.returnToCentralCache
  dsimp only
  split_ifs
  all_goals rfl

theorem undisturbed_longList (h : size ≤ 8) : (longList.deallocate () 4096 size).Undisturbed
    (longList.deallocate () 4096 size) () (getIndex size) (4096 :: cells 8192 8 0 256) [] := by
  refine ⟨rfl, rfl, fun _ _ => rfl, ?_, ?_, fun q hq => nomatch hq⟩
  · rw [deallocate_central]
    rfl
  · rw [List.append_nil, getIndex_of_le h]
    exact apart_longList

/-- One more block comes back with its eight bytes. -/
theorem System.Overfull.divided_iff_eight : ∃ start bytes,
    (longList.deallocate () 4096 8).Divided () start bytes 0 (4096 :: cells 8192 8 0 256) [] :=
  (System.Overfull.divided_iff (overfull_longList (le_refl 8))
    (undisturbed_longList (le_refl 8))).mpr (by decide)

/-- One more block comes back with the size 0, which `allocate` takes for eight bytes. -/
theorem deallocate_loses_blocks : longList.Overfull () 4096 0 (cells 8192 8 0 256) ∧
    ¬ ∃ start bytes, (longList.deallocate () 4096 0).Divided () start bytes 0
      (4096 :: cells 8192 8 0 256) [] := by
  have h := overfull_longList (Nat.zero_le 8)
  exact ⟨h, h.not_divided (undisturbed_longList (Nat.zero_le 8))⟩

end Cache
end KvStore
