import KvStore.Cache.Central

/-! The thread caches of `mempool/src/ThreadCache.cpp` over the shared caches. A call of
`allocate` or `deallocate` is cut at its calls of the central cache, so that the calls of several
threads interleave there; what `malloc`, `mmap` and `new` return is an argument. -/
namespace KvStore
open Memory

namespace Cache

/-- `SizeClass::roundUp`. -/
def roundUp (bytes : ℕ) : ℕ := (bytes + alignment - 1) / alignment * alignment

/-- `SizeClass::getIndex`. -/
def getIndex (bytes : ℕ) : ℕ := (max bytes alignment + alignment - 1) / alignment - 1

/-- `ThreadCache`. -/
structure ThreadCache where
  freelist : ℕ → Ptr
  freelistSize : ℕ → ℕ

/-- Where a thread stands: outside of the calls, before and after `fetchRange` of a size class
for a request of some size, or before `returnRange`. -/
inductive Pc
  | idle
  | fetch (size : ℕ)
  | fetched (start : Ptr) (size : ℕ)
  | returning (start : Ptr) (bytes index : ℕ)

/-- The shared caches with the threads. `out`, `pages` and `spent` are ghost records that no
branch reads: the blocks that `allocate` returned and `deallocate` did not get, with the sizes
asked for; the ranges that `mmap` returned; and the size classes of which a refill found the
central list not empty. -/
structure System (T : Type) extends Caches where
  thread : T → ThreadCache
  pc : T → Pc
  out : List (Ptr × ℕ)
  pages : List Block
  spent : List ℕ

/-- The bytes of a block that was handed out for a request. -/
def extent (b : Ptr × ℕ) : Block :=
  ⟨b.1, if maxBytes < b.2 then b.2 else blockSize (getIndex b.2)⟩

namespace ThreadCache

def setList (c : ThreadCache) (index : ℕ) (p : Ptr) (n : ℕ) : ThreadCache :=
  ⟨Function.update c.freelist index p, Function.update c.freelistSize index n⟩

/-- The loop of `returnToCentralCache` from the block number `i` on: the last block that is kept,
null when the list ends before it, and the number of blocks to return. -/
def splitNode (mem : ℕ → UInt8) (batchNum : ℕ) : ℕ → ℕ → Ptr → ℕ → Ptr × ℕ
  | 0, _, p, returnNum => (p, returnNum)
  | k + 1, i, p, returnNum =>
    if load mem p = null then (null, batchNum - (i + 1))
    else splitNode mem batchNum k (i + 1) (load mem p) returnNum

/-- The walk of `fetchFromCentralCache` that counts the blocks it got. -/
def countBlocks (mem : ℕ → UInt8) : ℕ → Ptr → ℕ → Option ℕ
  | 0, _, _ => none
  | n + 1, p, batchNum => if p = null then some batchNum
    else countBlocks mem n (load mem p) (batchNum + 1)

end ThreadCache

namespace System

variable {T : Type} [DecidableEq T]

def setThread (s : System T) (t : T) (c : ThreadCache) (pc : Pc) : System T :=
  { s with thread := Function.update s.thread t c, pc := Function.update s.pc t pc }

/-- What may be assumed of a pointer from `mmap` or `malloc`: it is null, or the range is new. -/
def Fresh (s : System T) (r n : ℕ) : Prop :=
  r ≠ null → r + n < 256 ^ wordBytes ∧ ∀ b ∈ s.pages ++ s.out.map extent, Apart ⟨r, n⟩ b

/-- `allocate` up to its end or to the call of `fetchRange`; `some p` when it returns `p`. -/
def allocate (s : System T) (t : T) (size : ℕ) (r : Ptr) : Option Ptr × System T :=
  let asked := if size = 0 then alignment else size
  if maxBytes < asked then
    (some r, if r = null then s else { s with out := (r, size) :: s.out })
  else
    let index := getIndex asked
    let c := s.thread t
    let n := (c.freelistSize index + (2 ^ 64 - 1)) % 2 ^ 64
    let p := c.freelist index
    if p ≠ null then
      (some p, { s.setThread t (c.setList index (load s.mem p) n) .idle with
        out := (p, size) :: s.out })
    else (none, s.setThread t (c.setList index p n) (.fetch size))

/-- The call of `fetchRange` in `fetchFromCentralCache`. -/
def callFetch (s : System T) (t : T) (size : ℕ) (node map : Ptr) : Option (System T) := do
  let index := getIndex size
  let (start, caches) ← s.fetchRange index node map
  some { s with
    toCaches := caches
    pc := Function.update s.pc t (.fetched start size)
    pages := if s.central.centralFreelist index = null ∧ map ≠ null ∧
          s.page.freeSpans.find? (Caches.numPages (blockSize index) ≤ ·.1) = none then
        ⟨map, Caches.numPages (blockSize index) * pageSize⟩ :: s.pages
      else s.pages
    spent := if s.central.centralFreelist index ≠ null then index :: s.spent else s.spent }

/-- The rest of `fetchFromCentralCache`: the pointer that `allocate` returns. -/
def finishFetch (n : ℕ) (s : System T) (t : T) (start : Ptr) (size : ℕ) :
    Option (Ptr × System T) :=
  let c := s.thread t
  let index := getIndex size
  if start = null then some (null, s.setThread t c .idle)
  else do
    let batchNum ← ThreadCache.countBlocks s.mem n start 0
    some (start, { s.setThread t (c.setList index (load s.mem start)
        ((c.freelistSize index + batchNum) % 2 ^ 64)) .idle with out := (start, size) :: s.out })

/-- `returnToCentralCache` up to the call of `returnRange`. -/
def returnToCentralCache (s : System T) (t : T) (start : Ptr) (size : ℕ) : System T :=
  let index := getIndex size
  let c := s.thread t
  let batchNum := c.freelistSize index
  if batchNum ≤ 1 then s
  else
    let keepNum := max (batchNum / 4) 1
    let (p, returnNum) :=
      ThreadCache.splitNode s.mem batchNum (keepNum - 1) 0 start (batchNum - keepNum)
    if p = null then s
    else
      let nextNode := load s.mem p
      let s := s.setThread t (c.setList index start keepNum)
        (if 0 < returnNum ∧ nextNode ≠ null
          then .returning nextNode (returnNum * roundUp size % 2 ^ 64) index else .idle)
      { s with mem := store s.mem p null }

/-- `shouldReturnToCentralCache`. -/
def shouldReturnToCentralCache (c : ThreadCache) (index : ℕ) : Bool := 256 < c.freelistSize index

/-- `deallocate` up to its end or to the call of `returnRange`. -/
def deallocate (s : System T) (t : T) (ptr : Ptr) (size : ℕ) : System T :=
  let s := { s with out := s.out.erase (ptr, size) }
  if maxBytes < size then s
  else
    let index := getIndex size
    let c := s.thread t
    let c := c.setList index ptr ((c.freelistSize index + 1) % 2 ^ 64)
    let s := { s.setThread t c .idle with mem := store s.mem ptr ((s.thread t).freelist index) }
    if shouldReturnToCentralCache c index then returnToCentralCache s t ptr size else s

/-- The call of `returnRange`. -/
def callReturn (n : ℕ) (s : System T) (t : T) (start : Ptr) (bytes index : ℕ) (t₀ now : ℤ)
    (arrange : List (ℕ × ℕ) → List (ℕ × ℕ)) : Option (System T) := do
  let caches ← s.returnRange n start bytes index t₀ now arrange
  some { s with toCaches := caches, pc := Function.update s.pc t .idle }

/-- User code may write into the outstanding blocks; the other bytes of the pages stay. -/
def Writes (s : System T) (mem' : ℕ → UInt8) : Prop :=
  ∀ a, (∃ b ∈ s.pages, b.Has a) → (∀ b ∈ s.out, ¬ (extent b).Has a) → mem' a = s.mem a

def start (mem : ℕ → UInt8) (now : ℕ → ℤ) : System T where
  mem := mem
  central := ⟨fun _ => null, fun _ => ⟨null, 0, 0, 0⟩, 0, fun _ => 0, now⟩
  page := ⟨[], fun _ => none, fun _ => none⟩
  thread := fun _ => ⟨fun _ => null, fun _ => 0⟩
  pc := fun _ => .idle
  out := []
  pages := []
  spent := []

/-- One step of one thread, or a write by user code. A step that ends a call of `allocate` has
the block it returns as its label. The central cache is called only where `ok` allows it for the
size class. -/
inductive Step (ok : System T → ℕ → Prop) : System T → Option (Ptr × ℕ) → System T → Prop
  | allocate {s s' : System T} {t : T} {size : ℕ} {r p : Ptr} (hpc : s.pc t = .idle)
      (hr : s.Fresh r size) (h : s.allocate t size r = (some p, s')) : Step ok s (some (p, size)) s'
  | miss {s s' : System T} {t : T} {size : ℕ} {r : Ptr} (hpc : s.pc t = .idle)
      (h : s.allocate t size r = (none, s')) : Step ok s none s'
  | fetch {s s' : System T} {t : T} {size : ℕ} {node map : Ptr} (hpc : s.pc t = .fetch size)
      (hok : ok s (getIndex size))
      (hm : s.Fresh map (Caches.numPages (blockSize (getIndex size)) * pageSize))
      (h : s.callFetch t size node map = some s') : Step ok s none s'
  | fetched {s s' : System T} {t : T} {n size : ℕ} {start p : Ptr}
      (hpc : s.pc t = .fetched start size) (h : s.finishFetch n t start size = some (p, s')) :
      Step ok s (some (p, size)) s'
  | deallocate {s : System T} {t : T} {p : Ptr} {size : ℕ} (hpc : s.pc t = .idle)
      (hp : (p, size) ∈ s.out) : Step ok s none (s.deallocate t p size)
  | returned {s s' : System T} {t : T} {n : ℕ} {start : Ptr} {bytes index : ℕ} {t₀ now : ℤ}
      {arrange : List (ℕ × ℕ) → List (ℕ × ℕ)} (hpc : s.pc t = .returning start bytes index)
      (hok : ok s index) (ha : ∀ l, (arrange l).Perm l)
      (h : s.callReturn n t start bytes index t₀ now arrange = some s') : Step ok s none s'
  | write {s : System T} {mem' : ℕ → UInt8} (hw : s.Writes mem') :
      Step ok s none { s with mem := mem' }

/-- The states that steps reach. -/
inductive Run (ok : System T → ℕ → Prop) : System T → Prop
  | start (mem : ℕ → UInt8) (now : ℕ → ℤ) : Run ok (start mem now)
  | step {s s' : System T} {label : Option (Ptr × ℕ)} (h : Run ok s) (hs : Step ok s label s') :
      Run ok s'

end System
end Cache
end KvStore
