import KvStore.Lib.CString
import KvStore.Lib.Memory
import Mathlib.Logic.Function.Basic

/-! The chunk pool of `kv_mempool.c` and the `kvs_malloc` and `kvs_free` of `kvstore.c` over it.
The pool's free list runs through the first word of each free chunk. What `malloc` answers is an
argument of the functions that call it. -/
namespace KvStore
open Memory

def poolChunkSize : UInt64 := 64

def poolChunkCount : UInt64 := 100000

namespace Mempool

/-- `mem_pool_t`. -/
structure MemPool where
  freeList : Ptr
  data : Ptr
  chunkSize : UInt64
  chunkCount : UInt64
  initialized : Bool

/-- The memory with the pool. `owned`, `cap` and `out` are ghost records that no branch reads:
the regions `malloc` gave out and `free` did not take back, the usable bytes of the block that a
pointer designates, and the pointers that `kvs_malloc` returned and `kvs_free` did not get. -/
structure Heap where
  mem : ℕ → UInt8
  globalPool : Option MemPool
  owned : List Block
  cap : Ptr → ℕ
  out : List Ptr

def alignUp (size align : UInt64) : UInt64 := (size + align - 1) &&& ~~~(align - 1)

/-- The region that `malloc` sets aside; a request for no bytes has an address all the same. -/
def region (r n : ℕ) : Block := ⟨r, max n 1⟩

/-- What may be assumed of a pointer from `malloc(n)`: it is null, or its region lies in the
address space and shares no byte with the regions in use. -/
def Fresh (owned : List Block) (n r : ℕ) : Prop :=
  r ≠ null → r + max n 1 < 256 ^ wordBytes ∧ ∀ b ∈ owned, Apart (region r n) b

/-- `sizeof(mem_pool_t)`. -/
def sizeofMemPool : ℕ := 40

/-- The loop of `kvs_mempool_create` with the null pointer it leaves in the last chunk. -/
def linkChunks (mem : ℕ → UInt8) (data size count : ℕ) : ℕ → UInt8 :=
  store (linkCells mem data size (count - 1)) (data + (count - 1) * size) null

/-- `kvs_mempool_create`; `r` and `d` are what `malloc` returns for the header and for the
chunks, both given back by `free` when the second request fails. -/
def kvsMempoolCreate (h : Heap) (chunkSize chunkCount : UInt64) (r d : ℕ) :
    Option MemPool × Heap :=
  if chunkSize = 0 ∨ chunkCount = 0 then (none, h)
  else
    let chunkSize := alignUp chunkSize 8
    if r = null ∨ d = null then (none, h)
    else
      (some ⟨d, d, chunkSize, chunkCount, true⟩,
        { h with
          mem := linkChunks h.mem d chunkSize.toNat chunkCount.toNat
          owned := region r sizeofMemPool :: region d (chunkSize * chunkCount).toNat :: h.owned
          cap := fun q =>
            if d ≤ q ∧ q < d + (chunkSize * chunkCount).toNat then chunkSize.toNat else h.cap q })

def kvsMempoolAlloc (mem : ℕ → UInt8) : Option MemPool → Ptr × Option MemPool
  | none => (null, none)
  | some mp =>
    if mp.initialized = false ∨ mp.freeList = null then (null, some mp)
    else (mp.freeList, some { mp with freeList := load mem mp.freeList })

def kvsMempoolFree (mem : ℕ → UInt8) (ptr : Ptr) : Option MemPool → (ℕ → UInt8) × Option MemPool
  | none => (mem, none)
  | some mp =>
    if ptr = null then (mem, some mp)
    else (store mem ptr mp.freeList, some { mp with freeList := ptr })

/-- `malloc` on behalf of `kvs_malloc`. -/
def mallocOut (h : Heap) (size r : ℕ) : Ptr × Heap :=
  if r = null then (null, h)
  else (r, { h with
    owned := region r size :: h.owned
    cap := Function.update h.cap r size
    out := r :: h.out })

def kvsMalloc (h : Heap) (size r : ℕ) : Ptr × Heap :=
  if size ≤ poolChunkSize.toNat then
    let a := kvsMempoolAlloc h.mem h.globalPool
    if a.1 ≠ null then (a.1, { h with globalPool := a.2, out := a.1 :: h.out })
    else mallocOut h size r
  else mallocOut h size r

def kvsFree (h : Heap) (ptr : Ptr) : Heap :=
  if ptr = null then h
  else if h.globalPool.isSome then
    let a := kvsMempoolFree h.mem ptr h.globalPool
    { h with mem := a.1, globalPool := a.2, out := h.out.erase ptr }
  else { h with owned := h.owned.filter (·.ptr ≠ ptr), out := h.out.erase ptr }

/-- The pool of `init_kvengine`. The requests that its engines then make are calls like any
other. -/
def initPool (mem : ℕ → UInt8) (r d : ℕ) : Heap :=
  let a := kvsMempoolCreate ⟨mem, none, [], fun _ => 0, []⟩ poolChunkSize poolChunkCount r d
  { a.2 with globalPool := a.1 }

/-- The block that a pointer designates. -/
def Heap.block (h : Heap) (p : Ptr) : Block := region p (h.cap p)

/-- The program may write into the blocks it holds; the other bytes that came from `malloc`
stay. -/
def Heap.Writes (h : Heap) (mem' : ℕ → UInt8) : Prop :=
  ∀ a, (∃ b ∈ h.owned, b.Has a) → (∀ p ∈ h.out, ¬ (⟨p, h.cap p⟩ : Block).Has a) →
    mem' a = h.mem a

/-- The states that calls reach from the creation of the pool on, each `kvs_free` of an
outstanding pointer and only where `ok` allows it. -/
inductive Run (ok : Heap → Ptr → Prop) : Heap → Prop
  | init (mem : ℕ → UInt8) {r d : ℕ} (hr : Fresh [] sizeofMemPool r)
      (hd : Fresh [region r sizeofMemPool] (poolChunkSize * poolChunkCount).toNat d) :
      Run ok (initPool mem r d)
  | malloc {h : Heap} {size r : ℕ} (hrun : Run ok h) (hr : Fresh h.owned size r) :
      Run ok (kvsMalloc h size r).2
  | free {h : Heap} {p : Ptr} (hrun : Run ok h) (hp : p ∈ h.out) (hok : ok h p) :
      Run ok (kvsFree h p)
  | write {h : Heap} {mem' : ℕ → UInt8} (hrun : Run ok h) (hw : h.Writes mem') :
      Run ok { h with mem := mem' }

end Mempool
end KvStore
