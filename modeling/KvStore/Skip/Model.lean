import KvStore.Lib.CString
import Mathlib.Logic.Function.Basic
import Mathlib.Order.Defs.LinearOrder
import Mathlib.Tactic.Simps.Basic

/-! The skip list of `kvs_skiptable.c`, over a heap of nodes with their arrays of forward
pointers. A step gives `none` when it reads a node that is not there or a forward slot beyond
the array; `while` loops also take the number of rounds they may run. -/
namespace KvStore

def skipMaxLevel : ℕ := 6

/-- `SkipNode`; the array `forward` has one slot for each level of the node. -/
structure SkipNode (S : Type*) where
  key : CString
  value : CString
  score : S
  forward : List Ptr

/-- `SkipList` with the memory its nodes live in. -/
structure SkipList (S : Type*) where
  level : ℕ
  header : Ptr
  length : ℤ
  nodes : Ptr → Option (SkipNode S)

namespace SkipList

variable {S : Type*}

@[simps] def setNode (L : SkipList S) (p : Ptr) (node : Option (SkipNode S)) : SkipList S :=
  { L with nodes := Function.update L.nodes p node }

/-- `p->forward[i]`. -/
def read (L : SkipList S) (p : Ptr) (i : ℕ) : Option Ptr :=
  (L.nodes p).bind fun node => node.forward[i]?

/-- `p->forward[i] = x`. -/
def write (L : SkipList S) (p : Ptr) (i : ℕ) (x : Ptr) : Option (SkipList S) :=
  (L.nodes p).bind fun node =>
  if i < node.forward.length then
    some (L.setNode p (some { node with forward := node.forward.set i x }))
  else none

/-- `while (current->forward[i] && less) current = current->forward[i];` -/
def scan (L : SkipList S) (less : SkipNode S → Bool) (i : ℕ) : ℕ → Ptr → Option Ptr
  | 0, _ => none
  | n + 1, current =>
    (L.read current i).bind fun next =>
    if next ≠ null then
      (L.nodes next).bind fun node =>
      if less node then scan L less i n next else some current
    else some current

/-- The descent from level `i` to level 0. The array `update` has no contents at first. -/
def descend (L : SkipList S) (less : SkipNode S → Bool) (n : ℕ) :
    ℕ → Ptr → (ℕ → Option Ptr) → Option (Ptr × (ℕ → Option Ptr))
  | 0, current, update =>
    (L.scan less 0 n current).bind fun current =>
    some (current, Function.update update 0 (some current))
  | i + 1, current, update =>
    (L.scan less (i + 1) n current).bind fun current =>
    descend L less n i current (Function.update update (i + 1) (some current))

/-- Link the new node into levels `i`, `i + 1`, … -/
def link (newNode : Ptr) (update : ℕ → Option Ptr) : ℕ → ℕ → SkipList S → Option (SkipList S)
  | 0, _, L => some L
  | count + 1, i, L =>
    (update i).bind fun u =>
    (L.read u i).bind fun next =>
    (L.write newNode i next).bind fun L =>
    (L.write u i newNode).bind fun L =>
    link newNode update count (i + 1) L

/-- Unlink the node `current` from levels `i`, `i + 1`, … until one is met where it does not
follow the node recorded. -/
def unlink (current : Ptr) (update : ℕ → Option Ptr) : ℕ → ℕ → SkipList S → Option (SkipList S)
  | 0, _, L => some L
  | count + 1, i, L =>
    (update i).bind fun u =>
    (L.read u i).bind fun next =>
    if next ≠ current then some L
    else
      (L.read current i).bind fun next =>
      (L.write u i next).bind fun L =>
      unlink current update count (i + 1) L

/-- `while (list->level > 0 && list->header->forward[list->level] == NULL) list->level--;` -/
def lowerLevel (L : SkipList S) : ℕ → Option ℕ
  | 0 => some 0
  | level + 1 =>
    (L.read L.header (level + 1)).bind fun next =>
    if next = null then lowerLevel L level else some (level + 1)

end SkipList

variable {S : Type*}

/-- The new node in the block `p`, with all its forward pointers `NULL`. -/
def createSkipNode (L : SkipList S) (p : Ptr) (level : ℕ) (key value : CString) (score : S) :
    SkipList S :=
  L.setNode p (some ⟨key, value, score, List.replicate (level + 1) null⟩)

/-- `kvs_skiptable_create` with the block `p` for the header. -/
def kvsSkiptableCreate [Zero S] (nodes : Ptr → Option (SkipNode S)) (p : Ptr) : SkipList S :=
  createSkipNode ⟨0, p, 0, nodes⟩ p skipMaxLevel .empty .empty 0

/-- The test of `kvs_skiptable_zadd` on the nodes it passes. -/
def zaddLess [LT S] [DecidableLT S] [BEq S] (score : S) (key : CString) (node : SkipNode S) : Bool :=
  node.score < score ∨ (node.score == score ∧ CString.strcmp node.key key < 0)

/-- The test of `kvs_skiptable_zrem`, which does not look at the score. -/
def zremLess (key : CString) (node : SkipNode S) : Bool := CString.strcmp node.key key < 0

/-- The rest of `kvs_skiptable_zadd` when the member is new: `level` is the outcome of
`randomLevel`, `p` the block for the node. -/
def zaddNew (L : SkipList S) (update : ℕ → Option Ptr) (p : Ptr) (level : ℕ) (key value : CString)
    (score : S) : Option (ℤ × SkipList S) :=
  let header := L.header
  let old := L.level
  let update := fun i => if old < i ∧ i ≤ level then some header else update i
  let L := if level > L.level then { L with level := level } else L
  let L := createSkipNode L p level key value score
  (SkipList.link p update (level + 1) 0 L).bind fun L =>
  some (0, { L with length := L.length + 1 })

/-- The part of `kvs_skiptable_zadd` after the descent, which ended at `current`. -/
def zaddAt [BEq S] (L : SkipList S) (current : Ptr) (update : ℕ → Option Ptr) (p : Ptr)
    (level : ℕ) (key value : CString) (score : S) : Option (ℤ × SkipList S) :=
  (L.read current 0).bind fun current =>
  if current ≠ null then
    (L.nodes current).bind fun node =>
    if node.score == score ∧ CString.strcmp node.key key = 0 then
      some (1, L.setNode current (some { node with value := value }))
    else zaddNew L update p level key value score
  else zaddNew L update p level key value score

def kvsSkiptableZadd [LT S] [DecidableLT S] [BEq S] (n : ℕ) (L : SkipList S) (p : Ptr) (level : ℕ)
    (key value : CString) (score : S) : Option (ℤ × SkipList S) :=
  (L.descend (zaddLess score key) n L.level L.header fun _ => none).bind fun r =>
  zaddAt L r.1 r.2 p level key value score

/-- The rest of `kvs_skiptable_zrem` at the node found; it is released in the end. -/
def zremFound (L : SkipList S) (update : ℕ → Option Ptr) (current : Ptr) :
    Option (ℤ × SkipList S) :=
  (SkipList.unlink current update (L.level + 1) 0 L).bind fun L =>
  let L := L.setNode current none
  (L.lowerLevel L.level).bind fun level =>
  some (0, { L with level := level, length := L.length - 1 })

/-- The part of `kvs_skiptable_zrem` after the descent, which ended at `current`. -/
def zremAt (L : SkipList S) (current : Ptr) (update : ℕ → Option Ptr) (key : CString) :
    Option (ℤ × SkipList S) :=
  (L.read current 0).bind fun current =>
  if current ≠ null then
    (L.nodes current).bind fun node =>
    if CString.strcmp node.key key = 0 then zremFound L update current
    else some (-1, L)
  else some (-1, L)

def kvsSkiptableZrem (n : ℕ) (L : SkipList S) (key : CString) : Option (ℤ × SkipList S) :=
  (L.descend (zremLess key) n L.level L.header fun _ => none).bind fun r =>
  zremAt L r.1 r.2 key

end KvStore
