import KvStore.Lib.CString
import Mathlib.Data.Fin.Basic
import Mathlib.Data.Int.DivMod
import Mathlib.Logic.Function.Basic

/-! The hash engine of `kvs_hash.c`: `MAX_TABLE_SIZE` chains of nodes. A call gives `none` when
the source leaves the memory it owns: a table index out of range, a wild or a `NULL` pointer. -/
namespace KvStore

def maxTableSize : ℕ := 1024

/-- `hashnode_t`; its field `next` is the rest of the chain it stands in. -/
structure HashNode where
  key : CString
  value : CharPtr
  deriving DecidableEq

/-- The key and the value that a node stores. -/
def HashNode.entry (x : HashNode) : CString × CharPtr := (x.key, x.value)

/-- `kvs_hash_t`. A slot that holds no pointer to a chain is `none`. -/
structure HashTable where
  nodes : Fin maxTableSize → Option (List HashNode)
  count : ℤ

/-- What `kvs_malloc` answers to the three requests of `_create_node`. -/
structure HashAlloc where
  node : Bool
  key : Bool
  value : Bool

namespace HashTable

/-- A `char` of the key as the signed number it is added as. -/
def charValue (b : UInt8) : ℤ := if b < 128 then b.toNat else b.toNat - 256

/-- `_hash`: the sum of the characters in an `int`, and the remainder of the C operator `%`,
which has the sign of the sum. -/
def hash (key : CString) (size : ℤ) : ℤ :=
  (key.bytes.foldl (fun sum b => (sum + charValue b).bmod (2 ^ 32)) 0).tmod size

/-- The slot of an index, when it is one. -/
def slot (idx : ℤ) : Option (Fin maxTableSize) :=
  if h : 0 ≤ idx ∧ idx < maxTableSize then some ⟨idx.toNat, by omega⟩ else none

/-- The walk that all calls make: the first node with the key, with the nodes before and after
it. -/
def locate (key : CString) : List HashNode → Option (List HashNode × HashNode × List HashNode)
  | [] => none
  | node :: next =>
    if CString.strcmp node.key key = 0 then some ([], node, next)
    else (locate key next).map fun r => (node :: r.1, r.2)

def setChain (hash : HashTable) (i : Fin maxTableSize) (chain : List HashNode) : HashTable :=
  { hash with nodes := Function.update hash.nodes i (some chain) }

/-- The slot of a key and the chain that hangs there. -/
def chainOf (hash : HashTable) (key : CString) : Option (Fin maxTableSize × List HashNode) :=
  (slot (HashTable.hash key maxTableSize)).bind fun i => (hash.nodes i).map fun chain => (i, chain)

def createNode (m : HashAlloc) (key value : CString) : Option HashNode :=
  if !m.node then none
  else if !m.key then none
  else if !m.value then none
  else some ⟨key, .str value⟩

end HashTable

open HashTable

/-- `kvs_hash_create` with the table `nodes` that `kvs_malloc` gave, whose contents are left as
they are. -/
def kvsHashCreate (nodes : Fin maxTableSize → Option (List HashNode)) : HashTable := ⟨nodes, 0⟩

/-- The node of `_create_node` is used without a check. -/
def kvsHashSet (hash : HashTable) (m : HashAlloc) (key value : Option CString) :
    Option (ℤ × HashTable) :=
  match key, value with
  | some key, some value =>
    (hash.chainOf key).bind fun (idx, chain) =>
    match locate key chain with
    | some _ => some (1, hash)
    | none =>
      (createNode m key value).bind fun node =>
      let hash := hash.setChain idx (node :: chain)
      some (0, { hash with count := hash.count + 1 })
  | _, _ => some (-1, hash)

def kvsHashGet (hash : HashTable) (key : Option CString) : Option CharPtr :=
  match key with
  | none => some .null
  | some key =>
    (hash.chainOf key).bind fun (_, chain) =>
    match locate key chain with
    | some (_, node, _) => some node.value
    | none => some .null

/-- The old value is released before the new one is asked for; `room` tells whether there was
memory for it. The value itself is not checked. -/
def kvsHashMod (hash : HashTable) (room : Bool) (key value : Option CString) :
    Option (ℤ × HashTable) :=
  match key with
  | none => some (-1, hash)
  | some key =>
    (hash.chainOf key).bind fun (idx, chain) =>
    match locate key chain with
    | none => some (1, hash)
    | some (l, node, r) =>
      value.bind fun value =>
      if !room then some (-2, hash.setChain idx (l ++ { node with value := .freed } :: r))
      else some (0, hash.setChain idx (l ++ { node with value := .str value } :: r))

def kvsHashCount (hash : HashTable) : ℤ := hash.count

/-- The head of a chain is unlinked from the table, any other node from the one before it. -/
def kvsHashDel (hash : HashTable) (key : Option CString) : Option (ℤ × HashTable) :=
  match key with
  | none => some (-2, hash)
  | some key =>
    (hash.chainOf key).bind fun (idx, chain) =>
    match chain with
    | [] => some (-1, hash)
    | head :: next =>
      if CString.strcmp head.key key = 0 then
        let hash := hash.setChain idx next
        some (0, { hash with count := hash.count - 1 })
      else
        match locate key next with
        | none => some (-1, hash)
        | some (l, _, r) =>
          let hash := hash.setChain idx (head :: (l ++ r))
          some (0, { hash with count := hash.count - 1 })

def kvsHashExist (hash : HashTable) (key : Option CString) : Option ℤ :=
  (kvsHashGet hash key).bind fun value =>
  if value = .null then some 1 else some 0

end KvStore
