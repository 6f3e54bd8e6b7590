import KvStore.Mempool.Model
import Mathlib.Data.List.Perm.Basic

/-! Which blocks `kvs_malloc` hands out. A block that `kvs_free` gets goes on the pool's list
whatever its size, so the pool serves requests well only as long as what it gets back has the
size of a chunk. -/
namespace KvStore
open Memory

namespace Mempool

variable {h h' : Heap} {p q r size : ℕ}

/-- The pool is in order with the chunks `free` on its list: they are large enough, and they and
the outstanding blocks lie in memory from `malloc`, each apart from the others. -/
structure Tidy (h : Heap) (free : List Ptr) : Prop where
  listed : h.globalPool.elim (free = []) fun mp =>
    mp.initialized = true ∧ Chain h.mem mp.freeList free
  large : ∀ p ∈ free, poolChunkSize.toNat ≤ h.cap p
  held : ∀ p ∈ free ++ h.out, p ≠ null ∧ p < 256 ^ wordBytes ∧ ∃ b ∈ h.owned, Inside (h.block p) b
  apart : (free ++ h.out).Pairwise fun p q => Apart (h.block p) (h.block q)
  /-- Without a pool every block is a region of its own. -/
  single : h.globalPool = none → ∀ p ∈ h.out, h.block p ∈ h.owned

theorem kvsMalloc_of_large (hsize : poolChunkSize.toNat < size) :
    kvsMalloc h size r = mallocOut h size r := if_neg (by omega)

theorem kvsMalloc_of_chunk {mp : MemPool} (hsize : size ≤ poolChunkSize.toNat)
    (hpool : h.globalPool = some mp) (hinit : mp.initialized = true) (hp : mp.freeList ≠ null) :
    kvsMalloc h size r = (mp.freeList, { h with
      globalPool := some { mp with freeList := load h.mem mp.freeList }
      out := mp.freeList :: h.out }) := by
  simp [kvsMalloc, hsize, hpool, kvsMempoolAlloc, hinit, hp]

theorem kvsMalloc_of_exhausted {mp : MemPool} (hpool : h.globalPool = some mp)
    (hp : mp.freeList = null) : kvsMalloc h size r = mallocOut h size r := by
  simp [kvsMalloc, hpool, kvsMempoolAlloc, hp]

theorem region_bytes_pos (r n : ℕ) : 0 < (region r n).bytes := Nat.le_max_right n 1

/-- The word at the start of a chunk is in the block that the chunk designates. -/
theorem inside_word (hp : poolChunkSize.toNat ≤ h.cap p) :
    Inside ⟨p, wordBytes⟩ (h.block p) := by
  have hmax : h.cap p ≤ (h.block p).bytes := Nat.le_max_left (h.cap p) 1
  refine ⟨Nat.le_refl p, Nat.add_le_add_left ?_ p⟩
  have hword : wordBytes ≤ poolChunkSize.toNat := by decide
  exact le_trans (le_trans hword hp) hmax

variable {free : List Ptr}

namespace Tidy

theorem block_apart (ht : Tidy h free) (hp : p ∈ free) (hq : q ∈ h.out) :
    Apart (h.block p) (h.block q) :=
  (List.pairwise_append.mp ht.apart).2.2 p hp q hq

theorem fresh_apart (ht : Tidy h free) (hr : Fresh h.owned size r) (hnull : r ≠ null)
    (hp : p ∈ free ++ h.out) : Apart (region r size) (h.block p) := by
  obtain ⟨-, -, b, hb, hin⟩ := ht.held p hp
  exact (hin.apart ((hr hnull).2 b hb).symm).symm

theorem mallocOut (ht : Tidy h free) (hr : Fresh h.owned size r) :
    Tidy (mallocOut h size r).2 free := by
  unfold Mempool.mallocOut
  by_cases hnull : r = null
  · rw [if_pos hnull]
    exact ht
  rw [if_neg hnull]
  have hself : region r (Function.update h.cap r size r) = region r size := by
    rw [Function.update_self]
  have hother : ∀ p ∈ free ++ h.out, r ≠ p ∧
      region p (Function.update h.cap r size p) = h.block p := by
    intro p hp
    have hne : r ≠ p := (ht.fresh_apart hr hnull hp).ptr_ne (region_bytes_pos _ _)
      (region_bytes_pos _ _)
    exact ⟨hne, by rw [Function.update_of_ne hne.symm]; rfl⟩
  refine ⟨ht.listed, ?_, ?_, ?_, ?_⟩
  · intro p hp
    have hne := (hother p (List.mem_append_left _ hp)).1
    change _ ≤ Function.update h.cap r size p
    rw [Function.update_of_ne hne.symm]
    exact ht.large p hp
  · intro p hp
    rw [List.mem_append, List.mem_cons, or_left_comm, ← List.mem_append] at hp
    rcases hp with rfl | hp
    · have hlt := (hr hnull).1
      refine ⟨hnull, lt_of_le_of_lt (Nat.le_add_right _ _) hlt, region p size, List.mem_cons_self, ?_⟩
      change Inside (region p (Function.update h.cap p size p)) _
      rw [hself]
      exact .refl _
    · obtain ⟨hp₀, hlt, b, hb, hin⟩ := ht.held p hp
      refine ⟨hp₀, hlt, b, List.mem_cons_of_mem _ hb, ?_⟩
      change Inside (region p (Function.update h.cap r size p)) b
      rwa [(hother p hp).2]
  · have hperm : (free ++ r :: h.out).Perm (r :: (free ++ h.out)) := List.perm_middle
    rw [hperm.pairwise_iff fun {_ _} hab => hab.symm]
    refine List.pairwise_cons.mpr ⟨fun p hp => ?_, ?_⟩
    · change Apart (region r (Function.update h.cap r size r))
        (region p (Function.update h.cap r size p))
      rw [hself, (hother p hp).2]
      exact ht.fresh_apart hr hnull hp
    · refine ht.apart.imp_of_mem fun {p q} hp hq hpq => ?_
      change Apart (region p (Function.update h.cap r size p))
        (region q (Function.update h.cap r size q))
      rwa [(hother p hp).2, (hother q hq).2]
  · intro hpool p hp
    change region p (Function.update h.cap r size p) ∈ region r size :: h.owned
    rcases List.mem_cons.mp hp with rfl | hp
    · rw [hself]
      exact List.mem_cons_self
    · rw [(hother p (List.mem_append_right _ hp)).2]
      exact List.mem_cons_of_mem _ (ht.single hpool p hp)

/-- The words that link the free chunks stay when all their bytes do. -/
theorem chain_congr (ht : Tidy h free) {mem' : ℕ → UInt8}
    (hm : ∀ p ∈ free, ∀ a, (h.block p).Has a → mem' a = h.mem a) {first : ℕ}
    (hc : Chain h.mem first free) : Chain mem' first free := by
  refine hc.congr fun p hp => load_congr fun a ha => ?_
  exact hm p hp a ((inside_word (ht.large p hp)).has ha)

theorem write (ht : Tidy h free) {mem' : ℕ → UInt8} (hw : h.Writes mem') :
    Tidy { h with mem := mem' } free := by
  refine ⟨?_, ht.large, ht.held, ht.apart, ht.single⟩
  have hkeep : ∀ p ∈ free, ∀ a, (h.block p).Has a → mem' a = h.mem a := by
    intro p hp a ha
    obtain ⟨-, -, b, hb, hin⟩ := ht.held p (List.mem_append_left _ hp)
    refine hw a ⟨b, hb, hin.has ha⟩ fun q hq hqa => ?_
    have hin' : Inside ⟨q, h.cap q⟩ (h.block q) :=
      ⟨Nat.le_refl q, Nat.add_le_add_left (Nat.le_max_left _ _) q⟩
    exact (ht.block_apart hp hq).not_has ha (hin'.has hqa)
  have hl := ht.listed
  cases hpool : h.globalPool with
  | none =>
    rw [hpool] at hl
    simpa [hpool] using hl
  | some mp =>
    rw [hpool] at hl
    simpa [hpool] using And.intro hl.1 (ht.chain_congr hkeep hl.2)

/-- What a request finds: a chunk of the pool, or the answer of `malloc`. -/
theorem kvsMalloc_cases (ht : Tidy h free) (size r : ℕ) :
    (∃ p rest mp, size ≤ poolChunkSize.toNat ∧ free = p :: rest ∧ h.globalPool = some mp ∧
      mp.initialized = true ∧ Chain h.mem (load h.mem p) rest ∧
      kvsMalloc h size r = (p, { h with
        globalPool := some { mp with freeList := load h.mem p }, out := p :: h.out })) ∨
    kvsMalloc h size r = Mempool.mallocOut h size r := by
  by_cases hsize : size ≤ poolChunkSize.toNat
  swap
  · exact .inr (kvsMalloc_of_large (by omega))
  have hl := ht.listed
  cases hpool : h.globalPool with
  | none =>
    right
    simp [Mempool.kvsMalloc, hpool, kvsMempoolAlloc]
  | some mp =>
    rw [hpool] at hl
    obtain ⟨hinit, hc⟩ := hl
    by_cases hnull : mp.freeList = null
    · exact .inr (kvsMalloc_of_exhausted hpool hnull)
    · obtain ⟨rest, hfree, hrest⟩ := hc.pop hnull
      exact .inl ⟨mp.freeList, rest, mp, hsize, hfree, rfl, hinit, hrest,
        kvsMalloc_of_chunk hsize hpool hinit hnull⟩

theorem pop {rest : List Ptr} {mp : MemPool} (ht : Tidy h (p :: rest)) (hinit : mp.initialized = true)
    (hrest : Chain h.mem (load h.mem p) rest) :
    Tidy { h with globalPool := some { mp with freeList := load h.mem p }, out := p :: h.out }
      rest := by
  have hperm : (rest ++ p :: h.out).Perm (p :: rest ++ h.out) := List.perm_middle
  refine ⟨⟨hinit, hrest⟩, fun q hq => ht.large q (List.mem_cons_of_mem _ hq),
    fun q hq => ht.held q (hperm.subset hq), ?_, fun hnone => by cases hnone⟩
  exact (hperm.pairwise_iff fun {_ _} hab => hab.symm).mpr ht.apart

theorem kvsMalloc (ht : Tidy h free) (hr : Fresh h.owned size r) :
    ∃ free', Tidy (kvsMalloc h size r).2 free' := by
  obtain ⟨p, rest, mp, -, rfl, -, hinit, hrest, heq⟩ | heq := ht.kvsMalloc_cases size r
  · rw [heq]
    exact ⟨rest, ht.pop hinit hrest⟩
  · rw [heq]
    exact ⟨free, ht.mallocOut hr⟩

/-- The block that a request gets in a tidy pool. -/
theorem sound (ht : Tidy h free) (hr : Fresh h.owned size r)
    (hp : (Mempool.kvsMalloc h size r).1 ≠ null) :
    size ≤ (Mempool.kvsMalloc h size r).2.cap (Mempool.kvsMalloc h size r).1 ∧
    ∀ q ∈ h.out, Apart ((Mempool.kvsMalloc h size r).2.block (Mempool.kvsMalloc h size r).1)
      ((Mempool.kvsMalloc h size r).2.block q) := by
  obtain ⟨p, rest, mp, hsize, rfl, -, -, -, heq⟩ | heq := ht.kvsMalloc_cases size r
  · rw [heq]
    exact ⟨le_trans hsize (ht.large p List.mem_cons_self),
      fun q hq => ht.block_apart List.mem_cons_self hq⟩
  · rw [heq] at hp ⊢
    have hnull : r ≠ null := by
      rintro rfl
      exact hp (by simp [Mempool.mallocOut])
    have hapart := (ht.mallocOut hr).apart
    simp only [Mempool.mallocOut, if_neg hnull] at hapart ⊢
    refine ⟨?_, fun q hq => ?_⟩
    · rw [Function.update_self]
    exact (List.pairwise_cons.mp (List.pairwise_append.mp hapart).2.1).1 q hq

end Tidy

theorem kvsFree_of_pool {mp : MemPool} (hpool : h.globalPool = some mp) (hp : p ≠ null) :
    kvsFree h p = { h with
      mem := store h.mem p mp.freeList
      globalPool := some { mp with freeList := p }
      out := h.out.erase p } := by
  simp [kvsFree, hpool, hp, kvsMempoolFree]

theorem kvsFree_of_none (hpool : h.globalPool = none) (hp : p ≠ null) :
    kvsFree h p =
      { h with owned := h.owned.filter (·.ptr ≠ p), out := h.out.erase p } := by
  simp [kvsFree, hpool, hp]

/-- A freed block is the answer to the next request that fits in a chunk. -/
theorem kvsMalloc_kvsFree {mp : MemPool} (hpool : h.globalPool = some mp)
    (hinit : mp.initialized = true) (hp : p ≠ null) (size r : ℕ)
    (hsize : size ≤ poolChunkSize.toNat) :
    (kvsMalloc (kvsFree h p) size r).1 = p ∧ (kvsMalloc (kvsFree h p) size r).2.cap = h.cap := by
  have hnext : { mp with freeList := p }.initialized = true := hinit
  rw [kvsFree_of_pool hpool hp, kvsMalloc_of_chunk hsize rfl hnext hp]
  exact ⟨rfl, rfl⟩

namespace Tidy

/-- A block of the size of a chunk comes to the front of the list. -/
theorem push {mp : MemPool} (ht : Tidy h free) (hpool : h.globalPool = some mp) (hp : p ∈ h.out)
    (hlarge : poolChunkSize.toNat ≤ h.cap p) : Tidy (Mempool.kvsFree h p) (p :: free) := by
  obtain ⟨hnull, -⟩ := ht.held p (List.mem_append_right _ hp)
  have hl := ht.listed
  rw [hpool] at hl
  obtain ⟨hinit, hc⟩ := hl
  rw [kvsFree_of_pool hpool hnull]
  have hperm : (p :: free ++ h.out.erase p).Perm (free ++ h.out) :=
    List.perm_middle.symm.trans (List.Perm.append_left free (List.perm_cons_erase hp).symm)
  refine ⟨⟨hinit, ?_⟩, ?_, fun q hq => ht.held q (hperm.subset hq), ?_, fun hnone => by cases hnone⟩
  · have hfirst : mp.freeList < 256 ^ wordBytes := by
      cases free with
      | nil => exact lt_of_eq_of_lt hc (Nat.pow_pos (by decide))
      | cons q rest =>
        obtain ⟨rfl, -⟩ := hc
        exact (ht.held mp.freeList (by simp)).2.1
    refine hc.push hnull hfirst fun q hq => ?_
    have hqp := (inside_word (ht.large q hq)).apart (ht.block_apart hq hp)
    exact ((inside_word hlarge).apart hqp.symm).symm
  · intro q hq
    rcases List.mem_cons.mp hq with rfl | hq
    · exact hlarge
    · exact ht.large q hq
  · exact (hperm.pairwise_iff fun {_ _} hab => hab.symm).mpr ht.apart

/-- A block of the size of a chunk goes back on the list, where there is one. -/
theorem kvsFree (ht : Tidy h free) (hp : p ∈ h.out)
    (hlarge : h.globalPool.isSome → poolChunkSize.toNat ≤ h.cap p) :
    ∃ free', Tidy (kvsFree h p) free' := by
  obtain ⟨hnull, -⟩ := ht.held p (List.mem_append_right _ hp)
  have hl := ht.listed
  cases hpool : h.globalPool with
  | none =>
    rw [hpool] at hl
    have hl' : free = [] := hl
    subst hl'
    rw [kvsFree_of_none hpool hnull]
    have hsingle := ht.single hpool
    have hne : ∀ q ∈ h.out.erase p, q ∈ h.out ∧ q ≠ p := by
      intro q hq
      have hperm := List.perm_cons_erase hp
      have hap := (hperm.pairwise_iff fun {_ _} hab => hab.symm).mp ht.apart
      have hqp := (List.pairwise_cons.mp hap).1 q hq
      exact ⟨List.mem_of_mem_erase hq,
        (hqp.ptr_ne (region_bytes_pos _ _) (region_bytes_pos _ _)).symm⟩
    have hkept : ∀ q ∈ h.out.erase p, h.block q ∈ h.owned.filter (·.ptr ≠ p) := by
      intro q hq
      exact List.mem_filter.mpr ⟨hsingle q (hne q hq).1, decide_eq_true (hne q hq).2⟩
    refine ⟨[], ⟨by rw [hpool]; rfl, by simp, fun q hq => ?_, ht.apart.sublist List.erase_sublist,
      fun _ q hq => hkept q hq⟩⟩
    obtain ⟨h₀, hlt, -⟩ := ht.held q (hne q hq).1
    exact ⟨h₀, hlt, h.block q, hkept q hq, .refl _⟩
  | some mp => exact ⟨p :: free, ht.push hpool hp (hlarge (by rw [hpool]; rfl))⟩

end Tidy

/-- The chunks of a new pool. -/
theorem tidy_linkChunks {mem : ℕ → UInt8} {owned : List Block} {cap : Ptr → ℕ} {d count : ℕ}
    (hcount : 0 < count) (hd : d ≠ null)
    (hspace : d + count * poolChunkSize.toNat < 256 ^ wordBytes)
    (howned : region d (count * poolChunkSize.toNat) ∈ owned)
    (hcap : ∀ q, d ≤ q → q < d + count * poolChunkSize.toNat → cap q = poolChunkSize.toNat) :
    Tidy ⟨linkChunks mem d poolChunkSize.toNat count,
        some ⟨d, d, poolChunkSize, poolChunkCount, true⟩, owned, cap, []⟩
      (cells d poolChunkSize.toNat 0 count) := by
  have hsize : wordBytes ≤ poolChunkSize.toNat := by decide
  have hpos : 0 < poolChunkSize.toNat := by decide
  have hchunk : ∀ q ∈ cells d poolChunkSize.toNat 0 count, d ≤ q ∧
      q + poolChunkSize.toNat ≤ d + count * poolChunkSize.toNat := by
    intro q hq
    obtain ⟨j, -, hj, rfl⟩ := mem_cells.mp hq
    rw [Nat.zero_add] at hj
    exact ⟨Nat.le_add_right _ _, cell_le d _ hj⟩
  have hall : ∀ q ∈ cells d poolChunkSize.toNat 0 count, cap q = poolChunkSize.toNat := by
    intro q hq
    obtain ⟨hle, hend⟩ := hchunk q hq
    exact hcap q hle (by omega)
  have hmax : max poolChunkSize.toNat 1 = poolChunkSize.toNat := by decide
  have hblock : ∀ q ∈ cells d poolChunkSize.toNat 0 count,
      region q (cap q) = ⟨q, poolChunkSize.toNat⟩ := by
    intro q hq
    rw [hall q hq, region, hmax]
  refine ⟨⟨rfl, ?_⟩, fun q hq => (hall q hq).ge, fun q hq => ?_, ?_, fun hnone => by cases hnone⟩
  · obtain ⟨n, rfl⟩ : ∃ n, count = n + 1 := ⟨count - 1, by omega⟩
    refine chain_linkCells hsize hd (lt_of_le_of_lt ?_ hspace)
    exact Nat.add_le_add_left (Nat.mul_le_mul_right _ (Nat.le_succ n)) d
  · rw [List.append_nil] at hq
    obtain ⟨hle, hend⟩ := hchunk q hq
    have hq₀ : q ≠ 0 := Nat.ne_of_gt (lt_of_lt_of_le (Nat.pos_of_ne_zero hd) hle)
    refine ⟨hq₀, lt_of_le_of_lt ?_ hspace, _, howned, ?_⟩
    · exact le_trans (Nat.le_add_right _ _) hend
    change Inside (region q (cap q)) _
    rw [hblock q hq]
    exact ⟨hle, le_trans hend (Nat.add_le_add_left (Nat.le_max_left _ _) d)⟩
  · rw [List.append_nil]
    refine (cells_pairwise d poolChunkSize.toNat 0 count).imp_of_mem fun {p q} hp hq hpq => ?_
    change Apart (region p (cap p)) (region q (cap q))
    rwa [hblock p hp, hblock q hq]

theorem initPool_of_null {mem : ℕ → UInt8} {r d : ℕ} (hnull : r = null ∨ d = null) :
    initPool mem r d = ⟨mem, none, [], fun _ => 0, []⟩ := by
  unfold initPool kvsMempoolCreate
  rw [if_neg (by decide)]
  simp only [if_pos hnull]

theorem initPool_of_ne {mem : ℕ → UInt8} {r d : ℕ} (hr : r ≠ null) (hd : d ≠ null) :
    initPool mem r d = ⟨linkChunks mem d poolChunkSize.toNat poolChunkCount.toNat,
      some ⟨d, d, poolChunkSize, poolChunkCount, true⟩,
      [region r sizeofMemPool, region d (poolChunkSize * poolChunkCount).toNat],
      fun q => if d ≤ q ∧ q < d + (poolChunkSize * poolChunkCount).toNat
        then poolChunkSize.toNat else 0, []⟩ := by
  have halign : alignUp poolChunkSize 8 = poolChunkSize := by decide
  unfold initPool kvsMempoolCreate
  rw [if_neg (by decide)]
  simp only [halign, hr, hd, or_self, if_false]

theorem tidy_newPool (mem : ℕ → UInt8) {r d : ℕ} (hr₀ : r ≠ null) (hd₀ : d ≠ null)
    (hd : Fresh [region r sizeofMemPool] (poolChunkSize * poolChunkCount).toNat d) :
    Tidy (initPool mem r d) (cells d poolChunkSize.toNat 0 poolChunkCount.toNat) := by
  rw [initPool_of_ne hr₀ hd₀]
  have hbytes : (poolChunkSize * poolChunkCount).toNat =
    poolChunkCount.toNat * poolChunkSize.toNat := by decide
  rw [hbytes] at hd ⊢
  have hspace := (hd hd₀).1
  rw [Nat.max_eq_left (by decide)] at hspace
  exact tidy_linkChunks (by decide) hd₀ hspace (by simp) fun q h₁ h₂ => if_pos ⟨h₁, h₂⟩

theorem tidy_initPool (mem : ℕ → UInt8) {r d : ℕ}
    (hd : Fresh [region r sizeofMemPool] (poolChunkSize * poolChunkCount).toNat d) :
    ∃ free, Tidy (initPool mem r d) free := by
  by_cases hnull : r = null ∨ d = null
  · rw [initPool_of_null hnull]
    exact ⟨[], rfl, by simp, by simp, List.Pairwise.nil, by simp⟩
  · obtain ⟨hr₀, hd₀⟩ := not_or.mp hnull
    exact ⟨_, tidy_newPool mem hr₀ hd₀ hd⟩

/-- While there is a pool, only blocks of the size of a chunk are freed. -/
def Careful (h : Heap) (p : Ptr) : Prop :=
  h.globalPool.isSome → poolChunkSize.toNat ≤ h.cap p

theorem Run.tidy (hrun : Run Careful h) : ∃ free, Tidy h free := by
  induction hrun with
  | init mem _ hd => exact tidy_initPool mem hd
  | malloc _ hr ih =>
    obtain ⟨free, ht⟩ := ih
    exact ht.kvsMalloc hr
  | free _ hp hok ih =>
    obtain ⟨free, ht⟩ := ih
    exact ht.kvsFree hp hok
  | write _ hw ih =>
    obtain ⟨free, ht⟩ := ih
    exact ⟨free, ht.write hw⟩

/-- A pointer that `kvs_malloc` returns designates a block of at least the bytes asked for, and
the block overlaps no outstanding one. -/
def Serves (h : Heap) (size r : ℕ) : Prop :=
  let a := kvsMalloc h size r
  a.1 ≠ null → size ≤ a.2.cap a.1 ∧ ∀ q ∈ h.out, Apart (a.2.block a.1) (a.2.block q)

/-- As long as no block smaller than a chunk is given to the pool, every request is served. -/
theorem careful_run_serves (hrun : Run Careful h) (hr : Fresh h.owned size r) :
    Serves h size r := by
  obtain ⟨free, ht⟩ := hrun.tidy
  exact ht.sound hr

/-- The first chunk on the list is handed out. -/
theorem Run.take {ok : Heap → Ptr → Prop} {rest : List Ptr} (hrun : Run ok h)
    (ht : Tidy h (p :: rest)) : ∃ h', Run ok h' ∧ Tidy h' rest ∧ h'.out = p :: h.out ∧
      h'.cap = h.cap ∧ h'.owned = h.owned ∧ ∃ mp, h'.globalPool = some mp := by
  have hl := ht.listed
  cases hpool : h.globalPool with
  | none =>
    rw [hpool] at hl
    cases hl
  | some mp =>
    rw [hpool] at hl
    obtain ⟨hinit, rfl, hnull, hrest⟩ := hl
    have hnone : Fresh h.owned 1 null := fun hne => absurd rfl hne
    have hrun' := hrun.malloc hnone
    rw [kvsMalloc_of_chunk (by decide) hpool hinit hnull] at hrun'
    exact ⟨_, hrun', ht.pop hinit hrest, rfl, rfl, rfl, _, rfl⟩

/-- Two chunks are handed out and the first comes back; it is the answer to the next request. -/
theorem Run.exchange {rest : List Ptr} (hrun : Run Careful h) (ht : Tidy h (p :: q :: rest)) :
    ∃ h', Run Careful h' ∧ h'.out = q :: h.out ∧
      ∀ size r, size ≤ poolChunkSize.toNat → (kvsMalloc h' size r).1 = p := by
  have hp := (ht.held p (by simp)).1
  have hlarge := ht.large p (by simp)
  have hpq : q ≠ p := by
    obtain ⟨hfirst, -⟩ := List.pairwise_cons.mp ht.apart
    exact ((hfirst q (by simp)).ptr_ne (region_bytes_pos _ _) (region_bytes_pos _ _)).symm
  obtain ⟨h₁, hrun₁, ht₁, hout₁, hcap₁, -⟩ := hrun.take ht
  obtain ⟨h₂, hrun₂, ht₂, hout₂, hcap₂, -, mp, hpool⟩ := hrun₁.take ht₁
  have hl := ht₂.listed
  rw [hpool] at hl
  rw [hout₁] at hout₂
  refine ⟨kvsFree h₂ p, hrun₂.free (by simp [hout₂]) fun _ => ?_, ?_,
    fun size r hsize => (kvsMalloc_kvsFree hpool hl.1 hp size r hsize).1⟩
  · rw [hcap₂, hcap₁]
    exact hlarge
  · rw [kvsFree_of_pool hpool hp]
    dsimp only
    rw [hout₂, List.erase_cons_tail (by simpa using hpq), List.erase_cons_head]

theorem careful_run_serves_exchange : ∃ h, Run Careful h ∧ h.out = [8256] ∧
    (kvsMalloc h 5 null).1 = 8192 ∧ Serves h 5 null := by
  have hd : Fresh [region 4096 sizeofMemPool] (poolChunkSize * poolChunkCount).toNat 8192 :=
    fun _ => ⟨by decide, by decide⟩
  have hrun : Run Careful (initPool (fun _ => 0) 4096 8192) :=
    .init _ (fun _ => ⟨by decide, by simp⟩) hd
  have ht := tidy_newPool (fun _ => 0) (by decide) (by decide) hd
  obtain ⟨h, hrun', hout, hnext⟩ := hrun.exchange ht
  have hnone : Fresh h.owned 5 null := fun hne => absurd rfl hne
  exact ⟨h, hrun', hout, hnext 5 null (by decide), careful_run_serves hrun' hnone⟩

/-- Until its list is empty, the pool gives a chunk for every request that fits in one. -/
theorem Run.drain {ok : Heap → Ptr → Prop} {mp : MemPool} (hrun : Run ok h) (ht : Tidy h free)
    (hpool : h.globalPool = some mp) :
    ∃ h' mp', Run ok h' ∧ Tidy h' [] ∧ h'.globalPool = some mp' ∧ h'.owned = h.owned := by
  induction free generalizing h mp with
  | nil => exact ⟨h, mp, hrun, ht, hpool, rfl⟩
  | cons p rest ih =>
    obtain ⟨h₁, hrun₁, ht₁, -, -, howned, mp₁, hpool₁⟩ := hrun.take ht
    obtain ⟨h', mp', hrun', ht', hpool', howned'⟩ := ih hrun₁ ht₁ hpool₁
    exact ⟨h', mp', hrun', ht', hpool', howned'.trans howned⟩

/-- All memory from `malloc` ends before the address. -/
def EndsBy (h : Heap) (limit : ℕ) : Prop := ∀ b ∈ h.owned, b.ptr + b.bytes ≤ limit

theorem EndsBy.fresh {limit : ℕ} (hb : EndsBy h limit) (hl : limit + max size 1 < 256 ^ wordBytes) :
    Fresh h.owned size limit :=
  fun _ => ⟨hl, fun b hmem => .inr (hb b hmem)⟩

/-- `malloc` answers with the first address after the memory in use. -/
theorem Run.mallocOut {ok : Heap → Ptr → Prop} {limit : ℕ} (hrun : Run ok h) (ht : Tidy h free)
    (hb : EndsBy h limit) (size : ℕ)
    (heq : Mempool.kvsMalloc h size limit = Mempool.mallocOut h size limit) (hsize : 0 < size)
    (h₀ : 0 < limit) (hl : limit + size < 256 ^ wordBytes) :
    ∃ h', Run ok h' ∧ Tidy h' free ∧ h'.globalPool = h.globalPool ∧ h'.mem = h.mem ∧
      EndsBy h' (limit + size) ∧ h'.cap limit = size ∧ limit ∈ h'.out := by
  have hmax : max size 1 = size := Nat.max_eq_left hsize
  have hfresh : Fresh h.owned size limit := hb.fresh (by rwa [hmax])
  have hrun' := hrun.malloc hfresh
  have ht' := ht.mallocOut hfresh
  have hne : limit ≠ null := Nat.ne_of_gt h₀
  rw [heq] at hrun'
  rw [Mempool.mallocOut, if_neg hne] at hrun' ht'
  refine ⟨_, hrun', ht', rfl, rfl, ?_, Function.update_self _ _ _, List.mem_cons_self⟩
  intro b hmem
  rcases List.mem_cons.mp hmem with rfl | hmem
  · exact le_of_eq (by rw [region, hmax])
  · exact le_trans (hb b hmem) (Nat.le_add_right _ _)

/-- A request that the pool answers, or that `malloc` refuses. -/
theorem Run.kvsMalloc_null {ok : Heap → Ptr → Prop} {mp : MemPool} (hrun : Run ok h)
    (ht : Tidy h free) (hpool : h.globalPool = some mp) (size : ℕ) :
    ∃ h' free' mp', Run ok h' ∧ Tidy h' free' ∧ h'.globalPool = some mp' ∧ h'.owned = h.owned := by
  have hnone : Fresh h.owned size null := fun hne => absurd rfl hne
  have hrun' := hrun.malloc hnone
  obtain ⟨p, rest, mp', -, rfl, -, hinit, hrest, heq⟩ | heq := ht.kvsMalloc_cases size null
  · rw [heq] at hrun'
    exact ⟨_, rest, _, hrun', ht.pop hinit hrest, rfl, rfl⟩
  · rw [heq] at hrun'
    exact ⟨h, free, mp, hrun, ht, hpool, rfl⟩

/-- A state after `init_kvengine`: the pool, then the array table, the sentinel of the tree and
the hash table. -/
theorem Run.initialised : ∃ (h : Heap) (free : List Ptr) (mp : MemPool),
    Run (fun _ _ => True) h ∧ Tidy h free ∧ h.globalPool = some mp ∧ EndsBy h 6432768 := by
  have hr : Fresh [] sizeofMemPool 4096 := fun _ => ⟨by decide, by simp⟩
  have hd : Fresh [region 4096 sizeofMemPool] (poolChunkSize * poolChunkCount).toNat 8192 :=
    fun _ => ⟨by decide, by decide⟩
  have hrun : Run (fun _ _ => True) (initPool (fun _ => 0) 4096 8192) := .init _ hr hd
  obtain ⟨free, ht⟩ := tidy_initPool (fun _ => 0) hd
  rw [initPool_of_ne (by decide) (by decide)] at hrun ht
  have hb : ∀ b ∈ [region 4096 sizeofMemPool, region 8192 (poolChunkSize * poolChunkCount).toNat],
      b.ptr + b.bytes ≤ 6408192 := by decide
  obtain ⟨h₁, hrun₁, ht₁, hpool₁, -, hb₁, -⟩ := hrun.mallocOut ht hb 16384
    (kvsMalloc_of_large (by decide)) (by decide) (by decide) (by decide)
  obtain ⟨h₂, free₂, mp, hrun₂, ht₂, hpool₂, howned⟩ := hrun₁.kvsMalloc_null ht₁ hpool₁ 48
  have hb₂ : EndsBy h₂ (6408192 + 16384) := by
    unfold EndsBy
    rwa [howned]
  obtain ⟨h₃, hrun₃, ht₃, hpool₃, -, hb₃, -⟩ := hrun₂.mallocOut ht₂ hb₂ 8192
    (kvsMalloc_of_large (by decide)) (by decide) (by decide) (by decide)
  exact ⟨h₃, free₂, mp, hrun₃, ht₃, hpool₃.trans hpool₂, hb₃⟩

/-- With all chunks in use a byte comes from `malloc`; freed, it is on the pool's list, and a
request for 64 bytes gets it. -/
theorem kvsMalloc_serves_short_block : ∃ h : Heap, Run (fun _ _ => True) h ∧
    Fresh h.owned 64 null ∧ (kvsMalloc h 64 null).1 = 6432768 ∧
    (kvsMalloc h 64 null).2.cap 6432768 = 1 ∧ ¬ Serves h 64 null := by
  obtain ⟨h₀, free, mp₀, hrun₀, ht₀, hpool₀, hb₀⟩ := Run.initialised
  obtain ⟨h₁, mp₁, hrun₁, ht₁, hpool₁, howned⟩ := hrun₀.drain ht₀ hpool₀
  have hb₁ : EndsBy h₁ 6432768 := by
    unfold EndsBy
    rwa [howned]
  have hl := ht₁.listed
  rw [hpool₁] at hl
  obtain ⟨hinit, hempty⟩ := hl
  obtain ⟨h₂, hrun₂, ht₂, hpool₂, -, -, hcap, hout⟩ := hrun₁.mallocOut ht₁ hb₁ 1
    (kvsMalloc_of_exhausted hpool₁ hempty) (by decide) (by decide) (by decide)
  rw [hpool₁] at hpool₂
  have hagain := kvsMalloc_kvsFree hpool₂ hinit (p := 6432768) (by decide)
  obtain ⟨hptr, hcap'⟩ := hagain 64 null (by decide)
  refine ⟨kvsFree h₂ 6432768, hrun₂.free hout trivial, fun hne => absurd rfl hne, hptr, ?_, ?_⟩
  · rw [hcap', hcap]
  · intro hs
    have hle := (hs (by rw [hptr]; decide)).1
    rw [hptr, hcap', hcap] at hle
    omega

end Mempool
end KvStore
