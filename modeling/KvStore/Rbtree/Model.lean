import KvStore.Lib.CString
import KvStore.Lib.RedBlack
import Mathlib.Logic.Function.Basic
import Mathlib.Tactic.Simps.Basic

/-! The red-black tree engine of `kvs_rbtree.c`, over a heap with one map for each field of
`rbtree_node`. Loops take the number of rounds they may run and give `none` when cut off; so does
a call that ends the program. -/
namespace KvStore
open RedBlack

/-- `rbtree` with the memory its nodes live in. `inPool` tells which blocks are chunks of the pool
of `kvs_malloc`, all others being blocks of `malloc`; the first chunk counts as one of these, as it
has the address that `malloc` returned for the whole pool. `touched` is a ghost record, begun when
the tree is created, of every node a rotation turned about or lifted and of every node coloured
red; no branch reads it. -/
structure Rbtree where
  color : Ptr → Color
  /-- The fields `left` and `right`. -/
  child : Side → Ptr → Ptr
  parent : Ptr → Ptr
  key : Ptr → CString
  value : Ptr → CharPtr
  root : Ptr
  nil : Ptr
  inPool : Ptr → Bool
  touched : List Ptr

namespace Rbtree

@[simps] def setColor (T : Rbtree) (x : Ptr) (c : Color) : Rbtree :=
  { T with
    color := Function.update T.color x c
    touched := if c = .red then x :: T.touched else T.touched }

@[simps color parent key value root nil inPool touched]
def setChild (T : Rbtree) (d : Side) (x p : Ptr) : Rbtree :=
  { T with child := Function.update T.child d (Function.update (T.child d) x p) }

@[simp] theorem setChild_child (T : Rbtree) (d e : Side) (x p q : Ptr) :
    (T.setChild d x p).child e q = if e = d ∧ q = x then p else T.child e q := by
  by_cases he : e = d
  · subst he
    simp [setChild, Function.update_apply]
  · simp [setChild, he]

@[simps] def setParent (T : Rbtree) (x p : Ptr) : Rbtree :=
  { T with parent := Function.update T.parent x p }

@[simps] def setKey (T : Rbtree) (x : Ptr) (k : CString) : Rbtree :=
  { T with key := Function.update T.key x k }

@[simps] def setValue (T : Rbtree) (x : Ptr) (v : CharPtr) : Rbtree :=
  { T with value := Function.update T.value x v }

@[simps] def setRoot (T : Rbtree) (x : Ptr) : Rbtree := { T with root := x }

@[simps] def touch (T : Rbtree) (xs : List Ptr) : Rbtree := { T with touched := xs ++ T.touched }

end Rbtree

def rbtreeMini (T : Rbtree) : ℕ → Ptr → Option Ptr
  | 0, _ => none
  | n + 1, x => if T.child .left x ≠ T.nil then rbtreeMini T n (T.child .left x) else some x

/-- The climb of `rbtree_successor` from a node without a right subtree. -/
def rbtreeClimb (T : Rbtree) : ℕ → Ptr → Ptr → Option Ptr
  | 0, _, _ => none
  | n + 1, x, y =>
    if y ≠ T.nil ∧ x = T.child .right y then rbtreeClimb T n y (T.parent y) else some y

def rbtreeSuccessor (T : Rbtree) (n : ℕ) (x : Ptr) : Option Ptr :=
  if T.child .right x ≠ T.nil then rbtreeMini T n (T.child .right x)
  else rbtreeClimb T n x (T.parent x)

/-- `y`, the child of `x` away from side `d`, takes the place of `x`, which becomes its child
on side `d`. The two rotations of the source are this with the sides exchanged. -/
def rbtreeRotate (d : Side) (T : Rbtree) (x : Ptr) : Rbtree :=
  let y := T.child d.opp x
  let T := T.setChild d.opp x (T.child d y)
  let T := if T.child d y ≠ T.nil then T.setParent (T.child d y) x else T
  let T := T.setParent y (T.parent x)
  let T :=
    if T.parent x = T.nil then T.setRoot y
    else if x = T.child d (T.parent x) then T.setChild d (T.parent x) y
    else T.setChild d.opp (T.parent x) y
  let T := T.setChild d y x
  let T := T.setParent x y
  T.touch [x, y]

def rbtreeLeftRotate : Rbtree → Ptr → Rbtree := rbtreeRotate .left
def rbtreeRightRotate : Rbtree → Ptr → Rbtree := rbtreeRotate .right

/-- One round of the insertion loop when the parent of `z` is the child on side `d` of the
grandparent: the first branch of the source is `d = left`, its mirror image `d = right`. -/
def insertFixupRound (d : Side) (T : Rbtree) (z : Ptr) : Rbtree × Ptr :=
  let y := T.child d.opp (T.parent (T.parent z))
  if T.color y = .red then
    let T := T.setColor (T.parent z) .black
    let T := T.setColor y .black
    let T := T.setColor (T.parent (T.parent z)) .red
    (T, T.parent (T.parent z))
  else
    let (T, z) :=
      if z = T.child d.opp (T.parent z) then (rbtreeRotate d T (T.parent z), T.parent z)
      else (T, z)
    let T := T.setColor (T.parent z) .black
    let T := T.setColor (T.parent (T.parent z)) .red
    (rbtreeRotate d.opp T (T.parent (T.parent z)), z)

def insertFixupLoop : ℕ → Rbtree → Ptr → Option Rbtree
  | 0, _, _ => none
  | n + 1, T, z =>
    if T.color (T.parent z) = .red then
      let d := if T.parent z = T.child .left (T.parent (T.parent z)) then Side.left else .right
      let (T, z) := insertFixupRound d T z
      insertFixupLoop n T z
    else some T

def rbtreeInsertFixup (n : ℕ) (T : Rbtree) (z : Ptr) : Option Rbtree :=
  (insertFixupLoop n T z).bind fun T => some (T.setColor T.root .black)

/-- The search of `rbtree_insert`: the last node passed, or `none` inside when the key of `z`
was met on the way. -/
def insertDescend (T : Rbtree) (z : Ptr) : ℕ → Ptr → Ptr → Option (Option Ptr)
  | 0, _, _ => none
  | n + 1, y, x =>
    if x ≠ T.nil then
      if CString.strcmp (T.key z) (T.key x) < 0 then insertDescend T z n x (T.child .left x)
      else if CString.strcmp (T.key z) (T.key x) > 0 then
        insertDescend T z n x (T.child .right x)
      else some none
    else some (some y)

/-- Hang `z` below `y` as a red leaf. -/
def insertLink (T : Rbtree) (z y : Ptr) : Rbtree :=
  let T := T.setParent z y
  let T :=
    if y = T.nil then T.setRoot z
    else if CString.strcmp (T.key z) (T.key y) < 0 then T.setChild .left y z
    else T.setChild .right y z
  let T := T.setChild .left z T.nil
  let T := T.setChild .right z T.nil
  T.setColor z .red

/-- The rest of `rbtree_insert`; a key met on the way ends it at once. -/
def insertAt (n : ℕ) (T : Rbtree) (z : Ptr) : Option Ptr → Option Rbtree
  | none => some T
  | some y => rbtreeInsertFixup n (insertLink T z y) z

def rbtreeInsert (n : ℕ) (T : Rbtree) (z : Ptr) : Option Rbtree :=
  (insertDescend T z n T.nil T.root).bind fun y => insertAt n T z y

/-- The red sibling case: afterwards the sibling of `x` is black. -/
def deleteRedSibling (d : Side) (T : Rbtree) (x w : Ptr) : Rbtree × Ptr :=
  if T.color w = .red then
    let T := T.setColor w .black
    let T := T.setColor (T.parent x) .red
    let T := rbtreeRotate d T (T.parent x)
    (T, T.child d.opp (T.parent x))
  else (T, w)

/-- The black sibling with only its inner child red: afterwards its outer child is red. -/
def deleteInnerRed (d : Side) (T : Rbtree) (x w : Ptr) : Rbtree × Ptr :=
  if T.color (T.child d.opp w) = .black then
    let T := T.setColor (T.child d w) .black
    let T := T.setColor w .red
    let T := rbtreeRotate d.opp T w
    (T, T.child d.opp (T.parent x))
  else (T, w)

/-- The black sibling with its outer child red: one rotation ends the loop. -/
def deleteOuterRed (d : Side) (T : Rbtree) (x w : Ptr) : Rbtree × Ptr :=
  let T := T.setColor w (T.color (T.parent x))
  let T := T.setColor (T.parent x) .black
  let T := T.setColor (T.child d.opp w) .black
  let T := rbtreeRotate d T (T.parent x)
  (T, T.root)

/-- The rest of the round, once the sibling `w` is black. -/
def deleteBlackSibling (d : Side) (T : Rbtree) (x w : Ptr) : Rbtree × Ptr :=
  if T.color (T.child .left w) = .black ∧ T.color (T.child .right w) = .black then
    let T := T.setColor w .red
    (T, T.parent x)
  else
    let (T, w) := deleteInnerRed d T x w
    deleteOuterRed d T x w

/-- One round of the deletion loop when `x` is the child on side `d` of its parent. -/
def deleteFixupRound (d : Side) (T : Rbtree) (x : Ptr) : Rbtree × Ptr :=
  let w := T.child d.opp (T.parent x)
  let (T, w) := deleteRedSibling d T x w
  deleteBlackSibling d T x w

def deleteFixupLoop : ℕ → Rbtree → Ptr → Option (Rbtree × Ptr)
  | 0, _, _ => none
  | n + 1, T, x =>
    if x ≠ T.root ∧ T.color x = .black then
      let d := if x = T.child .left (T.parent x) then Side.left else .right
      let (T, x) := deleteFixupRound d T x
      deleteFixupLoop n T x
    else some (T, x)

def rbtreeDeleteFixup (n : ℕ) (T : Rbtree) (x : Ptr) : Option Rbtree :=
  (deleteFixupLoop n T x).bind fun (T, x) => some (T.setColor x .black)

/-- The only child of `y`, or the sentinel. -/
def onlyChild (T : Rbtree) (y : Ptr) : Ptr :=
  if T.child .left y ≠ T.nil then T.child .left y
  else if T.child .right y ≠ T.nil then T.child .right y
  else T.nil

/-- Put `x` in the place of `y`. The parent is written even when `x` is the sentinel. -/
def deleteSplice (T : Rbtree) (y x : Ptr) : Rbtree :=
  let T := T.setParent x (T.parent y)
  if T.parent y = T.nil then T.setRoot x
  else if y = T.child .left (T.parent y) then T.setChild .left (T.parent y) x
  else T.setChild .right (T.parent y) x

def deleteSwap (T : Rbtree) (y z : Ptr) : Rbtree :=
  if y ≠ z then
    let tmp := T.key z
    let T := T.setKey z (T.key y)
    let T := T.setKey y tmp
    let tmp := T.value z
    let T := T.setValue z (T.value y)
    T.setValue y tmp
  else T

/-- The rest of `rbtree_delete`, once the node `y` to take out is chosen. -/
def deleteUnlink (n : ℕ) (T : Rbtree) (z y : Ptr) : Option (Rbtree × Ptr) :=
  let x := onlyChild T y
  let T := deleteSwap (deleteSplice T y x) y z
  (if T.color y = .black then rbtreeDeleteFixup n T x else some T).bind fun T =>
  some (T, y)

/-- The tree and the node that was unlinked from it. -/
def rbtreeDelete (n : ℕ) (T : Rbtree) (z : Ptr) : Option (Rbtree × Ptr) :=
  (if T.child .left z = T.nil ∨ T.child .right z = T.nil then some z
    else rbtreeSuccessor T n z).bind fun y =>
  deleteUnlink n T z y

def rbtreeSearchFrom (T : Rbtree) (key : CString) : ℕ → Ptr → Option Ptr
  | 0, _ => none
  | n + 1, node =>
    if node ≠ T.nil then
      if CString.strcmp key (T.key node) < 0 then rbtreeSearchFrom T key n (T.child .left node)
      else if CString.strcmp key (T.key node) > 0 then
        rbtreeSearchFrom T key n (T.child .right node)
      else some node
    else some T.nil

def rbtreeSearch (n : ℕ) (T : Rbtree) (key : CString) : Option Ptr :=
  rbtreeSearchFrom T key n T.root

/-- `kvs_rbtree_create`, with the block that `kvs_malloc` gave for the sentinel. The memory
itself is whatever it was, the other fields of the sentinel included. -/
def kvsRbtreeCreate (T : Rbtree) (p : Ptr) : Rbtree :=
  let T := { T with nil := p, touched := [] }
  let T := T.setColor T.nil .black
  T.setRoot T.nil

/-- What `kvs_malloc` answers to the three requests of one `kvs_rbtree_set`: the block for
the node, and whether there was memory for the key and for the value. -/
structure NodeAlloc where
  node : Option Ptr
  key : Bool
  value : Bool

/-- The result of the first request is used without a check, so without a node the call does
not return. -/
def kvsRbtreeSet (n : ℕ) (T : Rbtree) (m : NodeAlloc) (key value : Option CString) :
    Option (ℤ × Rbtree) :=
  match key, value with
  | some key, some value =>
    m.node.bind fun node =>
    if !m.key then some (-2, T)
    else
      let T := T.setKey node key
      if !m.value then some (-2, T)
      else
        let T := T.setValue node (.str value)
        (rbtreeInsert n T node).bind fun T => some (0, T)
  | _, _ => some (-1, T)

def kvsRbtreeGet (n : ℕ) (T : Rbtree) (key : Option CString) : Option CharPtr :=
  match key with
  | none => some .null
  | some key =>
    (rbtreeSearch n T key).bind fun node =>
    if node = null then some .null
    else if node = T.nil then some .null
    else some (T.value node)

/-- The unlinked node goes to `free` of the C library, which ends the program on a chunk of the
pool; its key and value are not released. -/
def kvsRbtreeDel (n : ℕ) (T : Rbtree) (key : Option CString) : Option (ℤ × Rbtree) :=
  match key with
  | none => some (-1, T)
  | some key =>
    (rbtreeSearch n T key).bind fun node =>
    if node = null then some (1, T)
    else
      (rbtreeDelete n T node).bind fun (T', cur) =>
      if T.inPool cur then none else some (0, T')

/-- `room` tells whether there was memory for the new value. -/
def kvsRbtreeMod (n : ℕ) (T : Rbtree) (room : Bool) (key value : Option CString) :
    Option (ℤ × Rbtree) :=
  match key, value with
  | some key, some value =>
    (rbtreeSearch n T key).bind fun node =>
    if node = null then some (1, T)
    else if node = T.nil then some (1, T)
    else if !room then some (-2, T.setValue node .null)
    else some (0, T.setValue node (.str value))
  | _, _ => some (-1, T)

def kvsRbtreeExist (n : ℕ) (T : Rbtree) (key : Option CString) : Option ℤ :=
  match key with
  | none => some (-1)
  | some key =>
    (rbtreeSearch n T key).bind fun node =>
    if node = null then some 1
    else if node = T.nil then some 1
    else some 0

end KvStore
