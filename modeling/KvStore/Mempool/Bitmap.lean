import KvStore.Lib.Bits
import KvStore.Mempool.Chunks

/-! The pool of `kv_mempool_slab.c`: a bit for each chunk says whether it is outstanding. What
`malloc` and `calloc` answer is an argument; a function returns none where it would divide by zero
or leave the bitmap. -/
namespace KvStore
open Memory Bits

namespace Mempool

/-- `bitmap_pool_t`. -/
structure BitmapPool where
  bitmap : List UInt8
  data : Ptr
  chunkSize : UInt64
  chunkCount : UInt64

/-- `bitmap_pool_create`; `r` and `d` are what `malloc` returns for the header and for the chunks,
`b` what `calloc` returns for the bitmap. -/
def bitmapPoolCreate (chunkSize chunkCount : UInt64) (r b d : Ptr) : Option BitmapPool :=
  let chunkSize := alignUp chunkSize 8
  if r = null then none
  else
    let bitmapBytes := (chunkCount + 7) / 8
    if b = null ∨ d = null then none
    else some ⟨List.replicate bitmapBytes.toNat 0, d, chunkSize, chunkCount⟩

/-- The loop of `bitmap_pool_alloc` from the chunk `i` on, for `k` chunks. -/
def BitmapPool.search (pool : BitmapPool) : ℕ → ℕ → Option (Ptr × BitmapPool)
  | _, 0 => some (null, pool)
  | i, k + 1 =>
    let byte := i / 8
    let bit := i % 8
    match pool.bitmap[byte]? with
    | none => none
    | some b =>
      if b.toUInt32 &&& (1 <<< UInt32.ofNat bit) = 0 then
        some (pool.data + (UInt64.ofNat i * pool.chunkSize).toNat, { pool with
          bitmap := pool.bitmap.set byte (b.toUInt32 ||| (1 <<< UInt32.ofNat bit)).toUInt8 })
      else pool.search (i + 1) k

def bitmapPoolAlloc (pool : BitmapPool) : Option (Ptr × BitmapPool) :=
  pool.search 0 pool.chunkCount.toNat

/-- `bitmap_pool_free`; the difference of the pointers is divided as a `size_t`. -/
def bitmapPoolFree (ptr : Ptr) : Option BitmapPool → Option (Option BitmapPool)
  | none => some none
  | some pool =>
    if ptr = null then some (some pool)
    else if pool.chunkSize = 0 then none
    else
      let idx := (UInt64.ofNat ptr - UInt64.ofNat pool.data) / pool.chunkSize
      if pool.chunkCount ≤ idx then some (some pool)
      else
        let byte := idx.toNat / 8
        let bit := idx.toNat % 8
        match pool.bitmap[byte]? with
        | none => none
        | some b => some (some { pool with
            bitmap := pool.bitmap.set byte (b.toUInt32 &&& ~~~(1 <<< UInt32.ofNat bit)).toUInt8 })

/-- The pool with these bits in its bitmap. -/
structure BitmapPool.Becomes (pool pool' : BitmapPool) (bits : ℕ → Bool) : Prop where
  data : pool'.data = pool.data
  chunkSize : pool'.chunkSize = pool.chunkSize
  chunkCount : pool'.chunkCount = pool.chunkCount
  length : pool'.bitmap.length = pool.bitmap.length
  bit : ∀ j, Bits.bit pool'.bitmap j = bits j

/-- The loop stops at the first clear bit and sets it, or goes through all of them. -/
theorem BitmapPool.search_eq {pool : BitmapPool} {i k : ℕ} (hk : i + k ≤ 8 * pool.bitmap.length) :
    (∃ j pool', pool.search i k = some (pool.data + (UInt64.ofNat j * pool.chunkSize).toNat, pool') ∧
      i ≤ j ∧ j < i + k ∧ bit pool.bitmap j = false ∧ (∀ l, i ≤ l → l < j → bit pool.bitmap l = true) ∧
      pool.Becomes pool' fun l => bit pool.bitmap l || decide (j = l)) ∨
    pool.search i k = some (null, pool) ∧ ∀ l, i ≤ l → l < i + k → bit pool.bitmap l = true := by
  induction k generalizing i with
  | zero => exact .inr ⟨rfl, fun l hl hli => absurd hli (Nat.not_lt.mpr hl)⟩
  | succ k ih =>
    obtain ⟨b, hb⟩ := getElem?_byte pool.bitmap (i := i) (by omega)
    have hmod : i % 8 < 8 := Nat.mod_lt _ (by decide)
    rw [BitmapPool.search]
    simp only [hb]
    by_cases hclear : b.toUInt32 &&& (1 <<< UInt32.ofNat (i % 8)) = 0
    · rw [if_pos hclear]
      have hbit : bit pool.bitmap i = false := by
        rw [bit_of_getElem? hb]
        exact (and_mask_eq_zero_iff b hmod).mp hclear
      refine .inl ⟨i, _, rfl, Nat.le_refl i, by omega, hbit,
        fun l hl hli => absurd hli (Nat.not_lt.mpr hl), rfl, rfl, rfl, List.length_set, ?_⟩
      exact bit_set_or hb
    · rw [if_neg hclear]
      have hbit : bit pool.bitmap i = true := by
        rw [bit_of_getElem? hb]
        exact Bool.eq_true_of_not_eq_false fun hf => hclear ((and_mask_eq_zero_iff b hmod).mpr hf)
      have hfrom : ∀ l, i ≤ l → (i + 1 ≤ l → bit pool.bitmap l = true) →
          bit pool.bitmap l = true := by
        intro l hl hnext
        obtain rfl | hlt := Nat.eq_or_lt_of_le hl
        · exact hbit
        · exact hnext hlt
      obtain ⟨j, pool', heq, hij, hj, hfree, hbelow, hset⟩ | ⟨heq, hall⟩ := ih (i := i + 1) (by omega)
      · exact .inl ⟨j, pool', heq, by omega, by omega, hfree,
          fun l hl hlj => hfrom l hl fun hnext => hbelow l hnext hlj, hset⟩
      · exact .inr ⟨heq, fun l hl hlk => hfrom l hl fun hnext => hall l hnext (by omega)⟩

/-- The address of the chunk number `i`. -/
def chunk (chunkSize : UInt64) (d : Ptr) (i : ℕ) : ℕ := d + i * chunkBytes chunkSize

variable {chunkSize chunkCount : UInt64} {d p r b : Ptr} {pool : BitmapPool} {out : List Ptr}
  {i j : ℕ}

/-- The bitmap's size does not overflow when that of the chunks does not. -/
theorem Fits.count_lt (hfit : Fits chunkSize chunkCount) (hsize : 0 < chunkSize) :
    chunkCount.toNat + 7 < 2 ^ 64 := by
  have hle := Nat.mul_le_mul_right chunkCount.toNat (word_le_chunkBytes hsize)
  unfold Fits at hfit
  unfold wordBytes at hle
  omega

theorem ne_zero_of_lt_toNat (hi : i < chunkCount.toNat) : chunkCount ≠ 0 := by
  rintro rfl
  exact absurd hi (Nat.not_lt_zero i)

theorem chunk_inj (hsize : 0 < chunkSize) : chunk chunkSize d i = chunk chunkSize d j ↔ i = j := by
  unfold chunk
  rw [Nat.add_left_cancel_iff, Nat.mul_left_inj (chunkBytes_pos hsize).ne']

/-- A chunk that lies in the address space is found from its address. -/
theorem chunk_index (hsize : 0 < chunkSize) {size : UInt64} (hbytes : size.toNat = chunkBytes chunkSize)
    (hspace : chunk chunkSize d i < 2 ^ 64) :
    ((UInt64.ofNat (chunk chunkSize d i) - UInt64.ofNat d) / size).toNat = i := by
  have hle : d ≤ chunk chunkSize d i := Nat.le_add_right _ _
  have hsub : (UInt64.ofNat (chunk chunkSize d i) - UInt64.ofNat d).toNat =
      i * chunkBytes chunkSize := by
    rw [← UInt64.ofNat_sub hle, UInt64.toNat_ofNat', Nat.mod_eq_of_lt (by omega), chunk,
      Nat.add_sub_cancel_left]
  rw [UInt64.toNat_div, hsub, hbytes, Nat.mul_div_cancel _ (chunkBytes_pos hsize)]

/-- The states that calls reach from a successful `bitmap_pool_create` on, each `bitmap_pool_free`
of an outstanding chunk. The list is of the pointers that `bitmap_pool_alloc` returned and
`bitmap_pool_free` did not get. -/
inductive BitmapRun (chunkSize chunkCount : UInt64) (d : Ptr) : BitmapPool → List Ptr → Prop
  | create {owned : List Block} {r b : Ptr} {pool : BitmapPool}
      (hd : Fresh owned (alignUp chunkSize 8 * chunkCount).toNat d)
      (hpool : bitmapPoolCreate chunkSize chunkCount r b d = some pool) :
      BitmapRun chunkSize chunkCount d pool []
  | alloc {pool pool' : BitmapPool} {p : Ptr} {out : List Ptr}
      (hrun : BitmapRun chunkSize chunkCount d pool out)
      (halloc : bitmapPoolAlloc pool = some (p, pool')) :
      BitmapRun chunkSize chunkCount d pool' (if p = null then out else p :: out)
  | free {pool pool' : BitmapPool} {p : Ptr} {out : List Ptr}
      (hrun : BitmapRun chunkSize chunkCount d pool out) (hp : p ∈ out)
      (hfree : bitmapPoolFree p (some pool) = some (some pool')) :
      BitmapRun chunkSize chunkCount d pool' (out.erase p)

/-- The set bits are the numbers of the outstanding chunks. -/
structure BitmapPool.Marks (chunkSize chunkCount : UInt64) (d : Ptr) (pool : BitmapPool)
    (out : List Ptr) : Prop where
  data : pool.data = d
  size : chunkCount ≠ 0 → pool.chunkSize.toNat = chunkBytes chunkSize
  count : pool.chunkCount = chunkCount
  length : pool.bitmap.length = (chunkCount.toNat + 7) / 8
  bits : ∀ i, bit pool.bitmap i = true ↔ i < chunkCount.toNat ∧ chunk chunkSize d i ∈ out
  nodup : out.Nodup
  chunks : ∀ p ∈ out, ∃ i < chunkCount.toNat, p = chunk chunkSize d i
  ne_null : d ≠ null
  space : ∀ i < chunkCount.toNat, chunk chunkSize d i < 2 ^ 64

namespace BitmapPool.Marks

theorem create {owned : List Block} (hsize : 0 < chunkSize) (hfit : Fits chunkSize chunkCount)
    (hd : Fresh owned (alignUp chunkSize 8 * chunkCount).toNat d)
    (hpool : bitmapPoolCreate chunkSize chunkCount r b d = some pool) :
    Marks chunkSize chunkCount d pool [] := by
  unfold bitmapPoolCreate at hpool
  by_cases hr : r = null
  · simp only [if_pos hr] at hpool
    cases hpool
  by_cases hnull : b = null ∨ d = null
  · simp only [if_neg hr, if_pos hnull] at hpool
    cases hpool
  simp only [if_neg hr, if_neg hnull, Option.some.injEq] at hpool
  subst hpool
  have hd₀ : d ≠ null := fun h₀ => hnull (.inr h₀)
  refine ⟨rfl, hfit.toNat_alignUp, rfl, ?_, fun i => ?_, .nil, by simp, hd₀, fun i hi => ?_⟩
  · have hseven : (7 : UInt64).toNat = 7 := rfl
    have height : (8 : UInt64).toNat = 8 := rfl
    rw [List.length_replicate, UInt64.toNat_div, UInt64.toNat_add, hseven, height,
      Nat.mod_eq_of_lt (hfit.count_lt hsize)]
  · rw [bit_replicate_zero]
    simp
  · have hcount := ne_zero_of_lt_toNat hi
    have hend := (hd hd₀).1
    have hlimit : 256 ^ wordBytes = 2 ^ 64 := by decide
    rw [hlimit, hfit.toNat_mul hcount, Nat.mul_comm] at hend
    have hle := Nat.le_max_left (chunkCount.toNat * chunkBytes chunkSize) 1
    have hcell := cell_le d (chunkBytes chunkSize) hi
    unfold chunk
    omega

theorem chunk_ne_null (hs : Marks chunkSize chunkCount d pool out) (i : ℕ) :
    chunk chunkSize d i ≠ null :=
  Nat.ne_of_gt (Nat.add_pos_left (Nat.pos_of_ne_zero hs.ne_null) _)

/-- The chunk whose number the loop stopped at. -/
theorem found (hs : Marks chunkSize chunkCount d pool out) (hi : i < chunkCount.toNat) :
    pool.data + (UInt64.ofNat i * pool.chunkSize).toNat = chunk chunkSize d i := by
  have hlt := hs.space i hi
  unfold chunk at hlt ⊢
  have hmod : i % 2 ^ 64 = i := Nat.mod_eq_of_lt (lt_trans hi chunkCount.toNat_lt)
  rw [hs.data, UInt64.toNat_mul, UInt64.toNat_ofNat', hs.size (ne_zero_of_lt_toNat hi), hmod,
    Nat.mod_eq_of_lt (by omega)]

/-- The first chunk that is not outstanding, with its bit set; or null when there is none. -/
theorem alloc_cases (hsize : 0 < chunkSize) (hs : Marks chunkSize chunkCount d pool out) :
    (∃ i pool', bitmapPoolAlloc pool = some (chunk chunkSize d i, pool') ∧ i < chunkCount.toNat ∧
      chunk chunkSize d i ∉ out ∧ (∀ j < i, chunk chunkSize d j ∈ out) ∧
      Marks chunkSize chunkCount d pool' (chunk chunkSize d i :: out)) ∨
    bitmapPoolAlloc pool = some (null, pool) ∧
      ∀ i < chunkCount.toNat, chunk chunkSize d i ∈ out := by
  have hlen := hs.length
  unfold bitmapPoolAlloc
  rw [hs.count]
  obtain ⟨i, pool', heq, -, hi, hclear, hbelow, hset⟩ | ⟨heq, hall⟩ :=
    pool.search_eq (i := 0) (k := chunkCount.toNat) (by omega)
  · rw [Nat.zero_add] at hi
    rw [hs.found hi] at heq
    have hnew : chunk chunkSize d i ∉ out := by
      intro hmem
      rw [(hs.bits i).mpr ⟨hi, hmem⟩] at hclear
      cases hclear
    refine .inl ⟨i, pool', heq, hi, hnew,
      fun j hj => ((hs.bits j).mp (hbelow j (Nat.zero_le j) hj)).2, ?_⟩
    refine ⟨hset.data.trans hs.data, fun hcount => ?_, hset.chunkCount.trans hs.count,
      hset.length.trans hs.length, fun j => ?_, List.nodup_cons.mpr ⟨hnew, hs.nodup⟩, ?_,
      hs.ne_null, hs.space⟩
    · rw [hset.chunkSize]
      exact hs.size hcount
    · rw [hset.bit, Bool.or_eq_true, hs.bits, decide_eq_true_iff, List.mem_cons,
        chunk_inj hsize]
      constructor
      · rintro (⟨hj, hmem⟩ | rfl)
        · exact ⟨hj, .inr hmem⟩
        · exact ⟨hi, .inl rfl⟩
      · rintro ⟨hj, rfl | hmem⟩
        · exact .inr rfl
        · exact .inl ⟨hj, hmem⟩
    · intro p hp
      rcases List.mem_cons.mp hp with rfl | hp
      · exact ⟨i, hi, rfl⟩
      · exact hs.chunks p hp
  · exact .inr ⟨heq, fun i hi => ((hs.bits i).mp (hall i (Nat.zero_le i) (by omega))).2⟩

/-- The bit of a chunk is cleared, and no other. -/
theorem free_eq (hsize : 0 < chunkSize) (hs : Marks chunkSize chunkCount d pool out)
    (hi : i < chunkCount.toNat) :
    ∃ pool', bitmapPoolFree (chunk chunkSize d i) (some pool) = some (some pool') ∧
      pool.Becomes pool' fun j => bit pool.bitmap j && !decide (i = j) := by
  have hbytes := hs.size (ne_zero_of_lt_toNat hi)
  have hne : pool.chunkSize ≠ 0 := by
    intro h₀
    rw [h₀] at hbytes
    exact (chunkBytes_pos hsize).ne hbytes
  have hidx := chunk_index hsize hbytes (hs.space i hi)
  have hlen := hs.length
  obtain ⟨b, hb⟩ := getElem?_byte pool.bitmap (i := i) (by omega)
  have hin : ¬ pool.chunkCount ≤
      (UInt64.ofNat (chunk chunkSize d i) - UInt64.ofNat d) / pool.chunkSize := by
    rw [UInt64.le_iff_toNat_le, hidx, hs.count]
    exact Nat.not_le.mpr hi
  rw [bitmapPoolFree, if_neg (hs.chunk_ne_null i), if_neg hne, hs.data]
  simp only [if_neg hin, hidx, hb]
  exact ⟨_, rfl, hs.data.symm, rfl, rfl, List.length_set, bit_set_and_not hb⟩

theorem free {pool' : BitmapPool} (hsize : 0 < chunkSize)
    (hs : Marks chunkSize chunkCount d pool out)
    (hset : pool.Becomes pool' fun j => bit pool.bitmap j && !decide (i = j)) :
    Marks chunkSize chunkCount d pool' (out.erase (chunk chunkSize d i)) := by
  refine ⟨hset.data.trans hs.data, fun hcount => ?_, hset.chunkCount.trans hs.count,
    hset.length.trans hs.length, fun j => ?_, hs.nodup.erase _,
    fun p hp => hs.chunks p (List.mem_of_mem_erase hp), hs.ne_null, hs.space⟩
  · rw [hset.chunkSize]
    exact hs.size hcount
  · rw [hset.bit, Bool.and_eq_true, hs.bits, Bool.not_eq_true', decide_eq_false_iff_not,
      hs.nodup.mem_erase_iff, Ne, chunk_inj hsize]
    constructor
    · rintro ⟨⟨hj, hmem⟩, hij⟩
      exact ⟨hj, fun heq => hij heq.symm, hmem⟩
    · rintro ⟨hj, hji, hmem⟩
      exact ⟨⟨hj, hmem⟩, fun heq => hji heq.symm⟩

end BitmapPool.Marks

theorem BitmapRun.marks (hsize : 0 < chunkSize) (hfit : Fits chunkSize chunkCount)
    (hrun : BitmapRun chunkSize chunkCount d pool out) :
    pool.Marks chunkSize chunkCount d out := by
  induction hrun with
  | create hd hpool => exact .create hsize hfit hd hpool
  | alloc _ halloc ih =>
    obtain ⟨i, pool', heq, -, -, -, hs⟩ | ⟨heq, -⟩ := ih.alloc_cases hsize
    · obtain ⟨rfl, rfl⟩ := Prod.mk.inj (Option.some.inj (halloc.symm.trans heq))
      rw [if_neg (ih.chunk_ne_null i)]
      exact hs
    · obtain ⟨rfl, rfl⟩ := Prod.mk.inj (Option.some.inj (halloc.symm.trans heq))
      rw [if_pos rfl]
      exact ih
  | free _ hp hfree ih =>
    obtain ⟨i, hi, rfl⟩ := ih.chunks _ hp
    obtain ⟨pool', heq, hset⟩ := ih.free_eq hsize hi
    obtain rfl := Option.some.inj (Option.some.inj (hfree.symm.trans heq))
    exact ih.free hsize hset

/-- `bitmap_pool_alloc` comes back with the lowest-numbered chunk that is not outstanding, and with
null when all are. -/
def TakesLowest (chunkSize chunkCount : UInt64) (d : Ptr) (pool : BitmapPool) (out : List Ptr) :
    Prop :=
  ∃ p pool', bitmapPoolAlloc pool = some (p, pool') ∧
    (p = null ↔ ∀ i < chunkCount.toNat, chunk chunkSize d i ∈ out) ∧
    (p ≠ null → ∃ i < chunkCount.toNat, p = chunk chunkSize d i ∧ chunk chunkSize d i ∉ out ∧
      ∀ j < i, chunk chunkSize d j ∈ out)

/-- `bitmap_pool_free` of the chunk `i` clears its bit and no other, and makes it available beside
those that were. -/
def Releases (chunkSize : UInt64) (d : Ptr) (pool : BitmapPool) (out : List Ptr) (i : ℕ) : Prop :=
  ∃ pool', bitmapPoolFree (chunk chunkSize d i) (some pool) = some (some pool') ∧
    (pool.Becomes pool' fun j => bit pool.bitmap j && !decide (i = j)) ∧
    ∀ j, chunk chunkSize d j ∉ out.erase (chunk chunkSize d i) ↔ j = i ∨ chunk chunkSize d j ∉ out

/-- In every state that calls reach, the bitmap tells which chunks are outstanding. -/
theorem bitmapRun_tells (hsize : 0 < chunkSize) (hfit : Fits chunkSize chunkCount)
    (hrun : BitmapRun chunkSize chunkCount d pool out) :
    (out.Nodup ∧ ∀ p ∈ out, ∃ i < chunkCount.toNat, p = chunk chunkSize d i) ∧
    (∀ i < chunkCount.toNat, bit pool.bitmap i = true ↔ chunk chunkSize d i ∈ out) ∧
    (∀ i, chunkCount.toNat ≤ i → bit pool.bitmap i = false) ∧
    TakesLowest chunkSize chunkCount d pool out ∧
    ∀ i < chunkCount.toNat, Releases chunkSize d pool out i := by
  have hs := hrun.marks hsize hfit
  refine ⟨⟨hs.nodup, hs.chunks⟩, fun i hi => ?_, fun i hi => ?_, ?_, fun i hi => ?_⟩
  · rw [hs.bits, and_iff_right hi]
  · refine Bool.eq_false_iff.mpr fun hset => ?_
    exact absurd ((hs.bits i).mp hset).1 (Nat.not_lt.mpr hi)
  · obtain ⟨i, pool', heq, hi, hnew, hbelow, -⟩ | ⟨heq, hall⟩ := hs.alloc_cases hsize
    · refine ⟨_, pool', heq, ⟨fun h₀ => absurd h₀ (hs.chunk_ne_null i), fun hall => ?_⟩,
        fun _ => ⟨i, hi, rfl, hnew, hbelow⟩⟩
      exact absurd (hall i hi) hnew
    · exact ⟨null, pool, heq, ⟨fun _ => hall, fun _ => rfl⟩, fun hne => absurd rfl hne⟩
  · obtain ⟨pool', heq, hset⟩ := hs.free_eq hsize hi
    refine ⟨pool', heq, hset, fun j => ?_⟩
    rw [hs.nodup.mem_erase_iff, Ne, chunk_inj hsize, not_and_or, not_not]

/-- Two chunks of three are taken and the first one is freed. -/
theorem bitmapRun_tells_second : ∃ pool, BitmapRun 5 3 8192 pool [8200] ∧
    pool.bitmap = [2] ∧ TakesLowest 5 3 8192 pool [8200] ∧
    ∀ i < 3, Releases 5 8192 pool [8200] i := by
  have hd : Fresh [] (alignUp 5 8 * 3).toNat 8192 := fun _ => ⟨by decide, by simp⟩
  have hnew : BitmapRun 5 3 8192 ⟨[0], 8192, 8, 3⟩ [] := .create (r := 64) (b := 128) hd rfl
  have hone : BitmapRun 5 3 8192 ⟨[1], 8192, 8, 3⟩ [8192] := hnew.alloc (p := 8192) rfl
  have htwo : BitmapRun 5 3 8192 ⟨[3], 8192, 8, 3⟩ [8200, 8192] := hone.alloc (p := 8200) rfl
  have hrun : BitmapRun 5 3 8192 ⟨[2], 8192, 8, 3⟩ [8200] :=
    htwo.free (p := 8192) (by decide) rfl
  obtain ⟨-, -, -, hlow, hrel⟩ := bitmapRun_tells (by decide) (by decide) hrun
  exact ⟨_, hrun, rfl, hlow, hrel⟩

end Mempool
end KvStore
