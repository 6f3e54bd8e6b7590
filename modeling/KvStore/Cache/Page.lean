import KvStore.Lib.CString
import KvStore.Lib.Memory
import Mathlib.Logic.Function.Basic

/-! The page cache of `mempool/src/PageCache.cpp`. A call gives `none` when it reads a `Span` that
is not there; the loop over a free list also takes the number of rounds it may run. The pointers
that `new Span` and `mmap` return are arguments. -/
namespace KvStore
open Memory

def pageSize : ℕ := 4096

namespace Cache

/-- `PageCache::Span`. -/
structure Span where
  next : Ptr
  pageAddr : Ptr
  numPages : ℕ

/-- `PageCache`: `freeSpans_` in the order of its keys, and `spanMap_`, with the memory that the
`Span` objects live in. -/
structure PageCache where
  freeSpans : List (ℕ × Ptr)
  spanMap : Ptr → Option Ptr
  spans : Ptr → Option Span

/-- An assignment to `freeSpans_[k]`. -/
def setList (k : ℕ) (p : Ptr) : List (ℕ × Ptr) → List (ℕ × Ptr)
  | [] => [(k, p)]
  | e :: es => if k < e.1 then (k, p) :: e :: es else if k = e.1 then (k, p) :: es
    else e :: setList k p es

/-- The value of `freeSpans_[k]`; a key that is not there gets a null pointer. -/
def getList (k : ℕ) (l : List (ℕ × Ptr)) : Ptr := (l.lookup k).getD null

/-- Memory after `memset(ptr, 0, n)`. -/
def zeroed (mem : ℕ → UInt8) (p n : ℕ) : ℕ → UInt8 := fun a =>
  if p ≤ a ∧ a < p + n then 0 else mem a

/-- The bytes that `systemAlloc` asks for, computed in a `size_t`. -/
def systemSize (numPages : ℕ) : ℕ := numPages * pageSize % 2 ^ 64

namespace PageCache

/-- The branch of `allocateSpan` that takes the span `p` off the list of key `k`; what it has
beyond the pages asked for becomes a span of its own. -/
def takeSpan (pc : PageCache) (numPages k : ℕ) (p node : Ptr) : Option (Ptr × PageCache) := do
  let span ← pc.spans p
  let freeSpans := if span.next ≠ null then setList k span.next pc.freeSpans
    else pc.freeSpans.filter (·.1 ≠ k)
  let spanMap := Function.update pc.spanMap span.pageAddr (some p)
  if numPages < span.numPages then
    let rest := span.numPages - numPages
    let newSpan : Span := ⟨getList rest freeSpans, span.pageAddr + numPages * pageSize, rest⟩
    some (span.pageAddr, ⟨setList rest node freeSpans, spanMap,
      Function.update (Function.update pc.spans node (some newSpan)) p
        (some { span with numPages := numPages })⟩)
  else some (span.pageAddr, ⟨freeSpans, spanMap, pc.spans⟩)

/-- `allocateSpan`; `node` is what `new Span` returns and `map` what `mmap` does, null for
`MAP_FAILED`. -/
def allocateSpan (pc : PageCache) (mem : ℕ → UInt8) (numPages : ℕ) (node map : Ptr) :
    Option (Ptr × PageCache × (ℕ → UInt8)) :=
  match pc.freeSpans.find? (numPages ≤ ·.1) with
  | some (k, p) => do
    let (q, pc) ← takeSpan pc numPages k p node
    some (q, pc, mem)
  | none =>
    if map = null then some (null, pc, mem)
    else some (map, { pc with
      spans := Function.update pc.spans node (some ⟨null, map, numPages⟩)
      spanMap := Function.update pc.spanMap map (some node) }, zeroed mem map (systemSize numPages))

/-- The loop that looks for a span behind the head of its list and takes it off. -/
def unlinkSpan (spans : Ptr → Option Span) (target : Ptr) :
    ℕ → Ptr → Option (Bool × (Ptr → Option Span))
  | 0, _ => none
  | n + 1, prev => do
    let q ← spans prev
    if q.next = null then some (false, spans)
    else if q.next = target then
      let t ← spans target
      some (true, Function.update spans prev (some { q with next := t.next }))
    else unlinkSpan spans target n q.next

/-- The merge of `deallocateSpan` with the span `q` behind it, when `q` is on a free list. -/
def mergeNext (n : ℕ) (pc : PageCache) (p q nextAddr : Ptr) : Option PageCache := do
  let nextSpan ← pc.spans q
  let head := getList nextSpan.numPages pc.freeSpans
  let (found, first, spans) ←
    if head = q then some (true, nextSpan.next, pc.spans)
    else if head ≠ null then do
      let (found, spans) ← unlinkSpan pc.spans q n head
      some (found, head, spans)
    else some (false, null, pc.spans)
  let freeSpans := setList nextSpan.numPages first pc.freeSpans
  if found then
    let span ← spans p
    some ⟨freeSpans, Function.update pc.spanMap nextAddr none,
      Function.update (Function.update spans p
        (some { span with numPages := span.numPages + nextSpan.numPages })) q none⟩
  else some ⟨freeSpans, pc.spanMap, spans⟩

def deallocateSpan (n : ℕ) (pc : PageCache) (ptr : Ptr) (numPages : ℕ) : Option PageCache :=
  match pc.spanMap ptr with
  | none => some pc
  | some p => do
    let nextAddr := ptr + numPages * pageSize
    let pc ← match pc.spanMap nextAddr with
      | none => some pc
      | some q => mergeNext n pc p q nextAddr
    let span ← pc.spans p
    some { pc with
      freeSpans := setList span.numPages p pc.freeSpans
      spans := Function.update pc.spans p
        (some { span with next := getList span.numPages pc.freeSpans }) }

end PageCache
end Cache
end KvStore
