import KvStore.Lib.FreeList
import KvStore.Mempool.Model

/-! One chunk pool between `kvs_mempool_alloc` and `kvs_mempool_free`. Whoever has a chunk may write
into all of it, the word that linked it included. -/
namespace KvStore
open Memory

namespace Mempool

/-- Clearing the three lowest bits rounds down to a multiple of 8. -/
theorem and_not_seven (x : UInt64) : (x &&& ~~~7).toNat = x.toNat / 8 * 8 := by
  have hseven : (7 : UInt64).toBitVec.toNat = 2 ^ 3 - 1 := rfl
  rw [← UInt64.toNat_toBitVec, UInt64.toBitVec_and, UInt64.toBitVec_not, ← UInt64.toNat_toBitVec]
  refine Nat.eq_of_testBit_eq fun i => ?_
  have hround : (x.toBitVec.toNat / 8 * 8).testBit i =
      (decide (3 ≤ i) && x.toBitVec.toNat.testBit (i - 3 + 3)) := by
    rw [← Nat.testBit_div_two_pow, ← Nat.testBit_mul_two_pow]
  rw [hround, BitVec.testBit_toNat, BitVec.testBit_toNat, BitVec.getLsbD_and, BitVec.getLsbD_not,
    ← BitVec.testBit_toNat (7 : UInt64).toBitVec, hseven, Nat.testBit_two_pow_sub_one]
  by_cases hi : 3 ≤ i
  · rw [Nat.sub_add_cancel hi]
    by_cases hlt : i < 64
    · simp [hi, hlt]
    · simp [BitVec.getLsbD_of_ge _ _ (Nat.le_of_not_lt hlt)]
  · simp [hi, Nat.lt_of_not_le hi]

theorem toNat_alignUp {size : UInt64} (hsize : size.toNat + 7 < 2 ^ 64) :
    (alignUp size 8).toNat = (size.toNat + 7) / 8 * 8 := by
  have hadd : size + 8 - 1 = size + 7 := by
    rw [UInt64.sub_eq_add_neg, UInt64.add_assoc]
    rfl
  have hseven : (7 : UInt64).toNat = 7 := rfl
  have hone : (8 : UInt64) - 1 = 7 := rfl
  rw [alignUp, hone, hadd, and_not_seven, UInt64.toNat_add, hseven, Nat.mod_eq_of_lt hsize]

/-- The bytes of a chunk: the size asked for, up to a multiple of a word. -/
def chunkBytes (chunkSize : UInt64) : ℕ := (chunkSize.toNat + 7) / 8 * 8

/-- The chunks that a pool at `d` is divided into. -/
def chunks (chunkSize chunkCount : UInt64) (d : Ptr) : List Ptr :=
  cells d (chunkBytes chunkSize) 0 chunkCount.toNat

variable {chunkSize chunkCount : UInt64} {d p q r : Ptr} {h : Heap}

theorem word_le_chunkBytes (hsize : 0 < chunkSize) : wordBytes ≤ chunkBytes chunkSize := by
  have hpos : 0 < chunkSize.toNat := hsize
  unfold chunkBytes wordBytes
  omega

theorem chunkBytes_pos (hsize : 0 < chunkSize) : 0 < chunkBytes chunkSize :=
  lt_of_lt_of_le (by decide) (word_le_chunkBytes hsize)

/-- All chunks together are no longer than `size_t` can say. -/
def Fits (chunkSize chunkCount : UInt64) : Prop :=
  chunkBytes chunkSize * chunkCount.toNat < 2 ^ 64

instance (chunkSize chunkCount : UInt64) : Decidable (Fits chunkSize chunkCount) :=
  inferInstanceAs (Decidable (_ < _))

theorem Fits.toNat_alignUp (hfit : Fits chunkSize chunkCount) (hcount : chunkCount ≠ 0) :
    (alignUp chunkSize 8).toNat = chunkBytes chunkSize := by
  have hpos : 1 ≤ chunkCount.toNat :=
    Nat.one_le_iff_ne_zero.mpr fun h₀ => hcount (UInt64.toNat_inj.mp h₀)
  have hone : chunkBytes chunkSize * 1 < 2 ^ 64 :=
    lt_of_le_of_lt (Nat.mul_le_mul_left _ hpos) hfit
  unfold chunkBytes at hone
  exact Mempool.toNat_alignUp (by omega)

theorem Fits.toNat_mul (hfit : Fits chunkSize chunkCount) (hcount : chunkCount ≠ 0) :
    (alignUp chunkSize 8 * chunkCount).toNat = chunkBytes chunkSize * chunkCount.toNat := by
  rw [UInt64.toNat_mul, hfit.toNat_alignUp hcount, Nat.mod_eq_of_lt hfit]

/-- The chunks are as many as asked for, and each is large enough, aligned where the data is, and
apart from the others in the data. -/
structure Divided (chunkSize chunkCount : UInt64) (d : Ptr) : Prop where
  length : (chunks chunkSize chunkCount d).length = chunkCount.toNat
  large : chunkSize.toNat ≤ chunkBytes chunkSize
  aligned : wordBytes ∣ d → ∀ p ∈ chunks chunkSize chunkCount d, wordBytes ∣ p
  inside : ∀ p ∈ chunks chunkSize chunkCount d,
    Inside ⟨p, chunkBytes chunkSize⟩ ⟨d, chunkBytes chunkSize * chunkCount.toNat⟩
  apart : (chunks chunkSize chunkCount d).Pairwise fun p q =>
    Apart ⟨p, chunkBytes chunkSize⟩ ⟨q, chunkBytes chunkSize⟩

theorem divided (chunkSize chunkCount : UInt64) (d : Ptr) : Divided chunkSize chunkCount d where
  length := by
    rw [chunks, cells, List.length_map, List.length_range']
  large := by
    unfold chunkBytes
    omega
  aligned := by
    intro hd p hp
    obtain ⟨j, -, -, rfl⟩ := mem_cells.mp hp
    have hword : wordBytes ∣ chunkBytes chunkSize := Nat.dvd_mul_left 8 _
    exact (Nat.dvd_add_right hd).mpr (hword.mul_left j)
  inside := by
    intro p hp
    obtain ⟨j, -, hj, rfl⟩ := mem_cells.mp hp
    rw [Nat.zero_add] at hj
    refine ⟨Nat.le_add_right _ _, ?_⟩
    rw [Nat.mul_comm (chunkBytes chunkSize)]
    exact cell_le d _ hj
  apart := cells_pairwise _ _ _ _

theorem kvsMempoolCreate_of_isSome
    (hpool : (kvsMempoolCreate h chunkSize chunkCount r d).1.isSome) :
    chunkSize ≠ 0 ∧ chunkCount ≠ 0 ∧ d ≠ null ∧
      (kvsMempoolCreate h chunkSize chunkCount r d).1 =
        some ⟨d, d, alignUp chunkSize 8, chunkCount, true⟩ ∧
      (kvsMempoolCreate h chunkSize chunkCount r d).2.mem =
        linkChunks h.mem d (alignUp chunkSize 8).toNat chunkCount.toNat := by
  unfold kvsMempoolCreate at *
  by_cases hzero : chunkSize = 0 ∨ chunkCount = 0
  · rw [if_pos hzero] at hpool
    cases hpool
  rw [if_neg hzero] at hpool ⊢
  by_cases hnull : r = null ∨ d = null
  · simp only [if_pos hnull] at hpool
    cases hpool
  simp only [if_neg hnull]
  rw [not_or] at hzero hnull
  exact ⟨hzero.1, hzero.2, hnull.2, trivial, trivial⟩

theorem kvsMempoolAlloc_of_null {mem : ℕ → UInt8} {mp : MemPool} (hnull : mp.freeList = null) :
    kvsMempoolAlloc mem (some mp) = (null, some mp) := if_pos (.inr hnull)

theorem kvsMempoolAlloc_of_ne {mem : ℕ → UInt8} {mp : MemPool} (hinit : mp.initialized = true)
    (hnull : mp.freeList ≠ null) : kvsMempoolAlloc mem (some mp) =
      (mp.freeList, some { mp with freeList := load mem mp.freeList }) := by
  simp [kvsMempoolAlloc, hinit, hnull]

/-- The memory and a pool, with the pointers that `kvs_mempool_alloc` returned and
`kvs_mempool_free` did not get. -/
structure Session where
  mem : ℕ → UInt8
  pool : Option MemPool
  out : List Ptr

namespace Session

def alloc (s : Session) : Ptr × Session :=
  let a := kvsMempoolAlloc s.mem s.pool
  (a.1, { s with pool := a.2, out := if a.1 = null then s.out else a.1 :: s.out })

def free (s : Session) (ptr : Ptr) : Session :=
  let a := kvsMempoolFree s.mem ptr s.pool
  ⟨a.1, a.2, s.out.erase ptr⟩

/-- Only the bytes of the data that belong to no outstanding chunk stay. -/
def Writes (s : Session) (data : Block) (bytes : ℕ) (mem' : ℕ → UInt8) : Prop :=
  ∀ a, data.Has a → (∀ p ∈ s.out, ¬ (⟨p, bytes⟩ : Block).Has a) → mem' a = s.mem a

/-- The states that calls reach from a successful `kvs_mempool_create` on, each
`kvs_mempool_free` of an outstanding chunk. -/
inductive Run (chunkSize chunkCount : UInt64) (d : Ptr) : Session → Prop
  | create {h : Heap} {r : Ptr} (hr : Fresh h.owned sizeofMemPool r)
      (hd : Fresh (region r sizeofMemPool :: h.owned) (alignUp chunkSize 8 * chunkCount).toNat d)
      (hpool : (kvsMempoolCreate h chunkSize chunkCount r d).1.isSome) :
      Run chunkSize chunkCount d ⟨(kvsMempoolCreate h chunkSize chunkCount r d).2.mem,
        (kvsMempoolCreate h chunkSize chunkCount r d).1, []⟩
  | alloc {s : Session} (hrun : Run chunkSize chunkCount d s) : Run chunkSize chunkCount d s.alloc.2
  | free {s : Session} {p : Ptr} (hrun : Run chunkSize chunkCount d s) (hp : p ∈ s.out) :
      Run chunkSize chunkCount d (s.free p)
  | write {s : Session} {mem' : ℕ → UInt8} (hrun : Run chunkSize chunkCount d s)
      (hw : s.Writes ⟨d, chunkBytes chunkSize * chunkCount.toNat⟩ (chunkBytes chunkSize) mem') :
      Run chunkSize chunkCount d { s with mem := mem' }

/-- The pool is the one created at `d`, and its list leads through the chunks not outstanding. -/
structure Sound (chunkSize chunkCount : UInt64) (d : Ptr) (s : Session) (mp : MemPool) : Prop where
  pool : s.pool = some mp
  data : mp.data = d
  size : mp.chunkSize.toNat = chunkBytes chunkSize
  count : mp.chunkCount = chunkCount
  ready : mp.initialized = true
  arena : Arena (chunks chunkSize chunkCount d) (chunkBytes chunkSize)
  listed : Lists s.mem mp.freeList (chunks chunkSize chunkCount d) s.out

variable {s : Session} {mp : MemPool}

namespace Sound

theorem create (hfit : Fits chunkSize chunkCount)
    (hd : Fresh (region r sizeofMemPool :: h.owned) (alignUp chunkSize 8 * chunkCount).toNat d)
    (hpool : (kvsMempoolCreate h chunkSize chunkCount r d).1.isSome) :
    ∃ mp, Sound chunkSize chunkCount d ⟨(kvsMempoolCreate h chunkSize chunkCount r d).2.mem,
      (kvsMempoolCreate h chunkSize chunkCount r d).1, []⟩ mp := by
  obtain ⟨hsize, hcount, hnull, hnew, hmem⟩ := kvsMempoolCreate_of_isSome hpool
  have hpos : 0 < chunkSize.toNat :=
    Nat.pos_of_ne_zero fun h₀ => hsize (UInt64.toNat_inj.mp h₀)
  have hword := word_le_chunkBytes hpos
  have hspace : d + chunkCount.toNat * chunkBytes chunkSize < 256 ^ wordBytes := by
    have hmax := (hd hnull).1
    rw [hfit.toNat_mul hcount, Nat.mul_comm] at hmax
    exact lt_of_le_of_lt (Nat.add_le_add_left (Nat.le_max_left _ 1) d) hmax
  refine ⟨_, hnew, rfl, hfit.toNat_alignUp hcount, rfl, rfl, arena_cells hword hnull hspace, ?_⟩
  rw [hmem, hfit.toNat_alignUp hcount, linkChunks, chunks]
  obtain ⟨n, hn⟩ : ∃ n, chunkCount.toNat = n + 1 :=
    Nat.exists_eq_succ_of_ne_zero fun h₀ => hcount (UInt64.toNat_inj.mp h₀)
  rw [hn] at hspace ⊢
  refine lists_linkCells hword hnull (lt_of_le_of_lt ?_ hspace)
  exact Nat.add_le_add_left (Nat.mul_le_mul_right _ (Nat.le_succ n)) d

theorem alloc_fst (hs : Sound chunkSize chunkCount d s mp) : s.alloc.1 = mp.freeList := by
  rw [Session.alloc, hs.pool]
  by_cases hnull : mp.freeList = null
  · rw [kvsMempoolAlloc_of_null hnull, hnull]
  · rw [kvsMempoolAlloc_of_ne hs.ready hnull]

theorem alloc (hs : Sound chunkSize chunkCount d s mp) :
    ∃ mp', Sound chunkSize chunkCount d s.alloc.2 mp' := by
  rw [Session.alloc, hs.pool]
  by_cases hnull : mp.freeList = null
  · rw [kvsMempoolAlloc_of_null hnull]
    exact ⟨mp, rfl, hs.data, hs.size, hs.count, hs.ready, hs.arena, hs.listed⟩
  · rw [kvsMempoolAlloc_of_ne hs.ready hnull]
    simp only [if_neg hnull]
    exact ⟨_, rfl, hs.data, hs.size, hs.count, hs.ready, hs.arena, hs.listed.take hnull⟩

theorem free (hs : Sound chunkSize chunkCount d s mp) (hp : p ∈ s.out) :
    ∃ mp', Sound chunkSize chunkCount d (s.free p) mp' := by
  have hnull : p ≠ null := (hs.arena.address p (hs.listed.out_subset hp)).1
  unfold Session.free
  rw [hs.pool, kvsMempoolFree, if_neg hnull]
  exact ⟨_, rfl, hs.data, hs.size, hs.count, hs.ready, hs.arena, hs.listed.give hs.arena hp⟩

/-- The free chunks are out of reach for the users of the others. -/
theorem spares (hs : Sound chunkSize chunkCount d s mp) {mem' : ℕ → UInt8}
    (hw : s.Writes ⟨d, chunkBytes chunkSize * chunkCount.toNat⟩ (chunkBytes chunkSize) mem') :
    Spares s.mem mem' (chunks chunkSize chunkCount d) s.out (chunkBytes chunkSize) := by
  intro p hp hout a ha
  refine hw a (((divided chunkSize chunkCount d).inside p hp).has ha) fun q hq => ?_
  have hne : p ≠ q := fun heq => hout (heq ▸ hq)
  exact (hs.arena.apart_of_ne hp (hs.listed.out_subset hq) hne).not_has ha

theorem write (hs : Sound chunkSize chunkCount d s mp) {mem' : ℕ → UInt8}
    (hw : s.Writes ⟨d, chunkBytes chunkSize * chunkCount.toNat⟩ (chunkBytes chunkSize) mem') :
    Sound chunkSize chunkCount d { s with mem := mem' } mp :=
  ⟨hs.pool, hs.data, hs.size, hs.count, hs.ready, hs.arena,
    hs.listed.write hs.arena (hs.spares hw)⟩

end Sound

theorem Run.sound (hrun : Run chunkSize chunkCount d s) (hfit : Fits chunkSize chunkCount) :
    ∃ mp, Sound chunkSize chunkCount d s mp := by
  induction hrun with
  | create _ hd hpool => exact Sound.create hfit hd hpool
  | alloc _ ih =>
    obtain ⟨mp, hs⟩ := ih
    exact hs.alloc
  | free _ hp ih =>
    obtain ⟨mp, hs⟩ := ih
    exact hs.free hp
  | write _ hw ih =>
    obtain ⟨mp, hs⟩ := ih
    exact ⟨mp, hs.write hw⟩

/-- The list is a finite one of exactly the chunks that are not outstanding. -/
def ListsFree (chunkSize chunkCount : UInt64) (d : Ptr) (s : Session) (mp : MemPool) : Prop :=
  ∃ free, Chain s.mem mp.freeList free ∧ free.Nodup ∧
    ∀ p, p ∈ free ↔ p ∈ chunks chunkSize chunkCount d ∧ p ∉ s.out

/-- What `kvs_mempool_alloc` would return: a chunk that is not outstanding, or null when all are. -/
def Serves (chunkSize chunkCount : UInt64) (d : Ptr) (s : Session) : Prop :=
  (s.alloc.1 ≠ null → s.alloc.1 ∈ chunks chunkSize chunkCount d ∧ s.alloc.1 ∉ s.out) ∧
  (s.alloc.1 = null ↔ s.out.length = chunkCount.toNat)

/-- Whatever the order of the calls, and whatever is written into the outstanding chunks. -/
theorem run_lists_free (hfit : Fits chunkSize chunkCount) (hrun : Run chunkSize chunkCount d s) :
    Divided chunkSize chunkCount d ∧
    (∃ mp, s.pool = some mp ∧ mp.data = d ∧ mp.chunkSize.toNat = chunkBytes chunkSize ∧
      mp.chunkCount = chunkCount ∧ ListsFree chunkSize chunkCount d s mp) ∧
    (s.out.Nodup ∧ ∀ p ∈ s.out, p ∈ chunks chunkSize chunkCount d) ∧
    Serves chunkSize chunkCount d s := by
  obtain ⟨mp, hs⟩ := hrun.sound hfit
  have hdiv := divided chunkSize chunkCount d
  refine ⟨hdiv, ⟨mp, hs.pool, hs.data, hs.size, hs.count, hs.listed.chain hs.arena⟩,
    ⟨hs.listed.out_nodup hs.arena, fun p => hs.listed.out_subset⟩, ?_⟩
  unfold Serves
  rw [hs.alloc_fst]
  refine ⟨hs.listed.head_mem hs.arena, ?_⟩
  rw [← hdiv.length]
  exact hs.listed.head_eq_zero_iff

theorem run_lists_free_first : ∃ s, Run 5 3 8192 s ∧ s.out = [8192] ∧ Divided 5 3 8192 ∧
    (∃ mp, s.pool = some mp ∧ ListsFree 5 3 8192 s mp) ∧ Serves 5 3 8192 s := by
  have hr : Fresh [] sizeofMemPool 4096 := fun _ => ⟨by decide, by simp⟩
  have hd : Fresh [region 4096 sizeofMemPool] (alignUp 5 8 * 3).toNat 8192 :=
    fun _ => ⟨by decide, by decide⟩
  have hrun : Run 5 3 8192 _ :=
    (Run.create (h := ⟨fun _ => 0, none, [], fun _ => 0, []⟩) hr hd rfl).alloc
  obtain ⟨hdiv, ⟨mp, hpool, -, -, -, hlist⟩, -, hserves⟩ := run_lists_free (by decide) hrun
  exact ⟨_, hrun, rfl, hdiv, ⟨mp, hpool, hlist⟩, hserves⟩

end Session
end Mempool
end KvStore
