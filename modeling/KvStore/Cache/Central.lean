import KvStore.Cache.Page
import Mathlib.Data.Int.DivMod

/-! The central cache of `mempool/src/CentralCache.cpp`: a free list for each size class, linked
through the blocks, and the trackers of the spans that were cut into blocks. A call gives `none`
when it reads past the trackers or the page cache does; walks along a free list take the number
of rounds they may run. -/
namespace KvStore
open Memory

def alignment : ℕ := 8

def maxBytes : ℕ := 256 * 1024

def freeListSize : ℕ := maxBytes / alignment

def spanPages : ℕ := 8

def spanTrackerNum : ℕ := 1024

def maxDelayCount : ℕ := 48

/-- `DELAY_INTERVAL` in nanoseconds. -/
def delayInterval : ℤ := 100000000

namespace Cache

/-- `SpanTracker`; nothing reads its field `count`. -/
structure SpanTracker where
  spanAddr : Ptr
  numPages : ℕ
  freeCount : ℕ
  blockCount : ℕ

/-- `CentralCache` without its locks: a call is one step. -/
structure CentralCache where
  centralFreelist : ℕ → Ptr
  spanTrackers : ℕ → SpanTracker
  spanCount : ℕ
  delayCounts : ℕ → ℕ
  lastReturnTime : ℕ → ℤ

/-- The memory with the central cache and the page cache. -/
structure Caches where
  mem : ℕ → UInt8
  central : CentralCache
  page : PageCache

/-- The bytes of a block of a size class. -/
def blockSize (index : ℕ) : ℕ := (index + 1) * alignment

namespace CentralCache

def setFreelist (c : CentralCache) (index : ℕ) (p : Ptr) : CentralCache :=
  { c with centralFreelist := Function.update c.centralFreelist index p }

def setTracker (c : CentralCache) (i : ℕ) (x : SpanTracker) : CentralCache :=
  { c with spanTrackers := Function.update c.spanTrackers i x }

/-- The range test of `getFromRange` and `updateSpanFreeCount`. -/
def covers (x : SpanTracker) (blockAddr : ℕ) : Bool :=
  x.spanAddr ≤ blockAddr ∧ blockAddr < x.spanAddr + x.numPages * pageSize

/-- The loop of `getFromRange` over `k` trackers from number `i` on. -/
def searchTrackers (c : CentralCache) (blockAddr : Ptr) : ℕ → ℕ → Option (Option ℕ)
  | 0, _ => some none
  | k + 1, i =>
    if i < spanTrackerNum then
      if covers (c.spanTrackers i) blockAddr then some (some i)
      else searchTrackers c blockAddr k (i + 1)
    else none

/-- `getFromRange`: the number of the tracker instead of its address. -/
def getFromRange (c : CentralCache) (blockAddr : Ptr) : Option (Option ℕ) :=
  searchTrackers c blockAddr c.spanCount 0

def shouldPerformDelayReturn (c : CentralCache) (index currentCount : ℕ) (currentTime : ℤ) : Bool :=
  maxDelayCount ≤ currentCount ∨ delayInterval ≤ currentTime - c.lastReturnTime index

end CentralCache

namespace Caches

def fetchFromPageCache (s : Caches) (size : ℕ) (node map : Ptr) : Option (Ptr × Caches) := do
  let numPages := (size + pageSize - 1) / pageSize
  let (p, page, mem) ← s.page.allocateSpan s.mem
    (if size < spanPages * pageSize then spanPages else numPages) node map
  some (p, { s with page := page, mem := mem })

/-- The pages that `fetchRange` reckons with. -/
def numPages (size : ℕ) : ℕ :=
  if size ≤ spanPages * pageSize then spanPages else (size + pageSize - 1) / pageSize

/-- The blocks that a span of the size class is cut into. -/
def blockNum (index : ℕ) : ℕ := numPages (blockSize index) * pageSize / blockSize index

/-- A span cut into blocks: the first one is handed out, the others go on the free list. -/
def carve (s : Caches) (index : ℕ) (start : Ptr) : Caches :=
  let size := blockSize index
  let mem := store (linkCells s.mem start size (blockNum index - 1))
    (start + (blockNum index - 1) * size) null
  let next := load mem start
  let c := s.central.setFreelist index next
  let c := { c with spanCount := c.spanCount + 1 }
  { s with
    mem := store mem start null
    central := if s.central.spanCount < spanTrackerNum then
        c.setTracker s.central.spanCount
          ⟨start, numPages size, blockNum index - 1, blockNum index⟩
      else c }

/-- The branch of `fetchRange` for a span that is a single block. -/
def single (s : Caches) (index : ℕ) (start : Ptr) : Option Caches := do
  let c := s.central.setFreelist index (load s.mem start)
  match ← c.getFromRange start with
  | none => some { s with central := c }
  | some i =>
    let x := c.spanTrackers i
    some { s with
      central := c.setTracker i { x with freeCount := (x.freeCount + (2 ^ 64 - 1)) % 2 ^ 64 } }

def fetchRange (s : Caches) (index : ℕ) (node map : Ptr) : Option (Ptr × Caches) :=
  if freeListSize ≤ index then some (null, s)
  else if s.central.centralFreelist index ≠ null then some (s.central.centralFreelist index, s)
  else do
    let (result, s) ← fetchFromPageCache s (blockSize index) node map
    if result = null then some (null, s)
    else if 1 < blockNum index then some (result, carve s index result)
    else
      let s ← single s index result
      some (result, s)

/-- The walk of `performDelayReturn`: how many blocks of the list lie in each tracked span. -/
def countFree (s : Caches) : ℕ → Ptr → List (ℕ × ℕ) → Option (List (ℕ × ℕ))
  | 0, _, _ => none
  | n + 1, p, counts =>
    if p = null then some counts
    else do
      let counts ← match ← s.central.getFromRange p with
        | none => some counts
        | some i => some (setList i (getList i counts + 1) counts)
      countFree s n (load s.mem p) counts

/-- The loop of `updateSpanFreeCount` that takes the blocks of a span off the list: the memory
and the new head. -/
def dropSpan (x : SpanTracker) : ℕ → (ℕ → UInt8) → Ptr → Ptr → Ptr → Option ((ℕ → UInt8) × Ptr)
  | 0, _, _, _, _ => none
  | n + 1, mem, current, prev, newhead =>
    if current = null then some (mem, newhead)
    else
      let next := load mem current
      if CentralCache.covers x current then
        if prev ≠ null then dropSpan x n (store mem prev next) next prev newhead
        else dropSpan x n mem next prev next
      else dropSpan x n mem next current newhead

def updateSpanFreeCount (n : ℕ) (s : Caches) (i newFreeBlocks index : ℕ) : Option Caches :=
  let x := s.central.spanTrackers i
  if (x.freeCount + newFreeBlocks) % 2 ^ 64 = x.blockCount then do
    let (mem, newhead) ← dropSpan x n s.mem (s.central.centralFreelist index) null null
    let page ← s.page.deallocateSpan n x.spanAddr x.numPages
    some ⟨mem, s.central.setFreelist index newhead, page⟩
  else some s

/-- The loop over `spanFreeCounts`. -/
def updateSpans (n : ℕ) (index : ℕ) : List (ℕ × ℕ) → Caches → Option Caches
  | [], s => some s
  | (i, newFreeBlocks) :: rest, s => do
    let s ← updateSpanFreeCount n s i newFreeBlocks index
    updateSpans n index rest s

/-- `performDelayReturn` at the time `now`; `arrange` is the order in which the `unordered_map`
is gone through. -/
def performDelayReturn (n : ℕ) (s : Caches) (index : ℕ) (now : ℤ)
    (arrange : List (ℕ × ℕ) → List (ℕ × ℕ)) : Option Caches := do
  let c := { s.central with
    delayCounts := Function.update s.central.delayCounts index 0
    lastReturnTime := Function.update s.central.lastReturnTime index now }
  let s := { s with central := c }
  let counts ← countFree s n (c.centralFreelist index) []
  updateSpans n index (arrange counts) s

/-- The walk of `returnRange` to the last of the blocks it takes. -/
def walkEnd (mem : ℕ → UInt8) : ℕ → Ptr → Ptr
  | 0, p => p
  | k + 1, p => if load mem p ≠ null then walkEnd mem k (load mem p) else p

/-- `returnRange`; `t` is the time it reads and `now` the one `performDelayReturn` reads. -/
def returnRange (n : ℕ) (s : Caches) (start : Ptr) (size index : ℕ) (t now : ℤ)
    (arrange : List (ℕ × ℕ) → List (ℕ × ℕ)) : Option Caches :=
  if start = null ∨ freeListSize ≤ index then some s
  else
    let blockcount := size / blockSize index
    let last := walkEnd s.mem (blockcount - 1) start
    let count := s.central.delayCounts index + 1
    let c := s.central.setFreelist index start
    let c := { c with delayCounts := Function.update c.delayCounts index count }
    let s : Caches := ⟨store s.mem last (s.central.centralFreelist index), c, s.page⟩
    if c.shouldPerformDelayReturn index count t then performDelayReturn n s index now arrange
    else some s

end Caches
end Cache
end KvStore
