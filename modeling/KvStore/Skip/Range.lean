import KvStore.Skip.Model

/-! The range query of `kvs_skiptable.c`. -/
namespace KvStore

def maxKeyLen : ℕ := 128
def maxValueLen : ℕ := 128

/-- `ZRangeEntry`. -/
structure ZRangeEntry (S : Type*) where
  key : CString
  value : CString
  score : S

/-- The first `n` bytes, as `strncpy` and the NUL behind them leave a string. -/
def CString.truncate (s : CString) (n : ℕ) : CString :=
  ⟨s.bytes.take n, fun h => s.nonzero (List.mem_of_mem_take h)⟩

namespace SkipList

variable {S : Type*}

/-- `while (current && current->score < min) current = current->forward[0];` -/
def zrangeStart [LT S] [DecidableLT S] (L : SkipList S) (min : S) : ℕ → Ptr → Option Ptr
  | 0, _ => none
  | n + 1, current =>
    if current ≠ null then
      (L.nodes current).bind fun node =>
      if node.score < min then (L.read current 0).bind fun next => zrangeStart L min n next
      else some current
    else some current

/-- The loop that fills the results, with `count` of them to go. -/
def zrangeFill [LE S] [DecidableLE S] (L : SkipList S) (max : S) : ℕ → Ptr → Option (List (ZRangeEntry S))
  | 0, current => if current ≠ null then (L.nodes current).map fun _ => [] else some []
  | count + 1, current =>
    if current ≠ null then
      (L.nodes current).bind fun node =>
      if node.score ≤ max then
        (L.read current 0).bind fun next =>
        (zrangeFill L max count next).map
          (⟨node.key.truncate (maxKeyLen - 1), node.value.truncate (maxValueLen - 1), node.score⟩ :: ·)
      else some []
    else some []

end SkipList

/-- The entries that are filled in; their number is the return value. -/
def kvsSkiptableZrangeEntries {S : Type*} [LT S] [DecidableLT S] [LE S] [DecidableLE S] (n : ℕ)
    (L : SkipList S) (min max : S) (maxResults : ℕ) : Option (List (ZRangeEntry S)) :=
  (L.read L.header 0).bind fun current =>
  (L.zrangeStart min n current).bind fun current =>
  L.zrangeFill max maxResults current

end KvStore
