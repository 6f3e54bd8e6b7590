import KvStore.Array.Model
import KvStore.Hash.Model
import KvStore.Mempool.Model
import KvStore.Protocol.Serve
import KvStore.Rdb.Model

/-! The calls of the three engines that ask `kvs_malloc` for blocks and give blocks back, with the
pointers to these blocks. A call gives `none` when its engine does not come back, and when it makes
a request that the pool has no chunk for. -/
namespace KvStore
open KvsArray HashTable

/-- What `kvs_malloc` and `kvs_free` keep: the free chunks of the pool, the next one first, and the
blocks that are outstanding. `strays` is a ghost record of the blocks that the C library's `free`
was called on. -/
structure Stock where
  chunks : List Ptr
  out : List Ptr
  strays : List Ptr

namespace Stock

/-- A request that the pool can serve. All others go to `malloc`. -/
def kvsMalloc (s : Stock) (size : ℕ) : Option (Ptr × Stock) :=
  match s.chunks with
  | [] => none
  | p :: chunks =>
    if size ≤ poolChunkSize.toNat then some (p, { s with chunks := chunks, out := p :: s.out })
    else none

def kvsFree (s : Stock) (ptr : Ptr) : Stock :=
  if ptr = null then s else { s with chunks := ptr :: s.chunks, out := s.out.erase ptr }

/-- `free` of the C library. -/
def free (s : Stock) (ptr : Ptr) : Stock :=
  { s with out := s.out.erase ptr, strays := ptr :: s.strays }

/-- The two requests for a copy of a key and of a value. -/
def copyEntry (s : Stock) (key value : CString) : Option (Ptr × Ptr × Stock) :=
  (s.kvsMalloc (key.length + 1)).bind fun (kcopy, s) =>
  (s.kvsMalloc (value.length + 1)).bind fun (kvalue, s) =>
  some (kcopy, kvalue, s)

end Stock

/-- `sizeof(rbtree_node)`. -/
def sizeofRbtreeNode : ℕ := 48

/-- `sizeof(hashnode_t)`. -/
def sizeofHashnode : ℕ := 24

/-- The blocks of a node of a chain. -/
structure NodeBlocks where
  node : Ptr
  key : Ptr
  value : Ptr

/-- The engines with the pointers of their tables, slots and nodes. The blocks of a chain stand in
the order of its nodes. -/
structure Ledger extends Engines where
  arrayTable : Ptr
  hashTable : Ptr
  slotKey : ℕ → Ptr
  slotValue : ℕ → Ptr
  nodeKey : Ptr → Ptr
  nodeValue : Ptr → Ptr
  chain : Fin maxTableSize → List NodeBlocks
  stock : Stock

namespace Ledger

variable (s : Ledger)

def fillSlot (i : ℕ) (kcopy kvalue : Ptr) : Ledger :=
  { s with
    slotKey := Function.update s.slotKey i kcopy
    slotValue := Function.update s.slotValue i kvalue }

def fillNode (node kcopy kvalue : Ptr) : Ledger :=
  { s with
    nodeKey := Function.update s.nodeKey node kcopy
    nodeValue := Function.update s.nodeValue node kvalue }

def setBlocks (i : Fin maxTableSize) (bs : List NodeBlocks) : Ledger :=
  { s with chain := Function.update s.chain i bs }

/-- `kvs_array_set`. -/
def arraySet (key value : Option CString) : Option (ℤ × Ledger) :=
  s.array.lock.bind fun inst =>
  match key, value with
  | some key, some value =>
    if inst.total = kvsArraySize then some (-1, { s with array := inst.unlock })
    else
      (scan true inst.table key 0 inst.total).bind fun found =>
      match found with
      | some _ => some (1, { s with array := inst.unlock })
      | none =>
        (s.stock.copyEntry key value).bind fun (kcopy, kvalue, stock) =>
        (scanHole inst.table 0 inst.total).bind fun hole =>
        match hole with
        | some i =>
          let inst := inst.setItem i (.live key value)
          some (0, { s.fillSlot i kcopy kvalue with
            array := { inst with total := inst.total + 1 }.unlock, stock := stock })
        | none =>
          if inst.total < kvsArraySize then
            let s := s.fillSlot inst.total kcopy kvalue
            let inst := inst.setItem inst.total (.live key value)
            some (0, { s with
              array := { inst with total := inst.total + 1 }.unlock, stock := stock })
          else some (0, { s with array := inst.unlock, stock := stock })
  | _, _ => some (-1, { s with array := inst.unlock })

/-- `kvs_array_del`. -/
def arrayDel (key : Option CString) : Option (ℤ × Ledger) :=
  s.array.lock.bind fun inst =>
  match key with
  | none => some (-1, { s with array := inst })
  | some key =>
    (scan false inst.table key 0 inst.total).bind fun found =>
    match found with
    | some i =>
      if (inst.table i).value = .freed then none
      else
        let stock := (s.stock.kvsFree (s.slotKey i)).kvsFree (s.slotValue i)
        let s := s.fillSlot i null null
        let inst := inst.setItem i .hole
        if inst.total - 1 = i then
          some (0, { s with
            array := { inst with total := inst.total - 1 }.unlock, stock := stock })
        else some (0, { s with array := inst.unlock, stock := stock })
    | none => some (inst.total, { s with array := inst.unlock })

/-- `kvs_array_mod`. -/
def arrayMod (key value : Option CString) : Option (ℤ × Ledger) :=
  s.array.lock.bind fun inst =>
  match key, value with
  | some key, some value =>
    if inst.total = 0 then some (kvsArraySize, { s with array := inst.unlock })
    else
      (scan true inst.table key 0 inst.total).bind fun found =>
      match found with
      | some i =>
        if (inst.table i).value = .freed then none
        else
          ((s.stock.kvsFree (s.slotValue i)).kvsMalloc (value.length + 1)).bind
            fun (kvalue, stock) =>
          some (0, { s.fillSlot i (s.slotKey i) kvalue with
            array := (inst.setItem i { inst.table i with value := .str value }).unlock
            stock := stock })
      | none => some (inst.total, { s with array := inst.unlock })
  | _, _ => some (-1, { s with array := inst })

/-- `kvs_rbtree_set`. -/
def rbtreeSet (n : ℕ) (key value : Option CString) : Option (ℤ × Ledger) :=
  match key, value with
  | some key, some value =>
    (s.stock.kvsMalloc sizeofRbtreeNode).bind fun (node, stock) =>
    (stock.copyEntry key value).bind fun (kcopy, kvalue, stock) =>
    (rbtreeInsert n ((s.rbtree.setKey node key).setValue node (.str value)) node).bind fun T =>
    some (0, { s.fillNode node kcopy kvalue with rbtree := T, stock := stock })
  | _, _ => some (-1, s)

/-- `kvs_rbtree_del`. The pointers of the node that was unlinked change place with those of the
node that was searched, and only the node goes, to `free`, which ends the program on a chunk. -/
def rbtreeDel (n : ℕ) (key : Option CString) : Option (ℤ × Ledger) :=
  match key with
  | none => some (-1, s)
  | some key =>
    (rbtreeSearch n s.rbtree key).bind fun node =>
    if node = null then some (1, s)
    else
      (rbtreeDelete n s.rbtree node).bind fun (T, cur) =>
      if s.rbtree.inPool cur then none
      else
        let t := s.fillNode node (s.nodeKey cur) (s.nodeValue cur)
        some (0, { t.fillNode cur (s.nodeKey node) (s.nodeValue node) with
          rbtree := T, stock := s.stock.free cur })

/-- `kvs_rbtree_mod`. -/
def rbtreeMod (n : ℕ) (key value : Option CString) : Option (ℤ × Ledger) :=
  match key, value with
  | some key, some value =>
    (rbtreeSearch n s.rbtree key).bind fun node =>
    if node = null then some (1, s)
    else if node = s.rbtree.nil then some (1, s)
    else
      ((s.stock.kvsFree (s.nodeValue node)).kvsMalloc (value.length + 1)).bind
        fun (kvalue, stock) =>
      some (0, { s.fillNode node (s.nodeKey node) kvalue with
        rbtree := s.rbtree.setValue node (.str value), stock := stock })
  | _, _ => some (-1, s)

/-- `kvs_hash_set`. -/
def hashSet (key value : Option CString) : Option (ℤ × Ledger) :=
  match key, value with
  | some key, some value =>
    (s.hash.chainOf key).bind fun (idx, chain) =>
    match locate key chain with
    | some _ => some (1, s)
    | none =>
      (s.stock.kvsMalloc sizeofHashnode).bind fun (node, stock) =>
      (stock.copyEntry key value).bind fun (kcopy, kvalue, stock) =>
      let hash := s.hash.setChain idx (⟨key, .str value⟩ :: chain)
      some (0, { s.setBlocks idx (⟨node, kcopy, kvalue⟩ :: s.chain idx) with
        hash := { hash with count := hash.count + 1 }, stock := stock })
  | _, _ => some (-1, s)

/-- `kvs_hash_mod`. -/
def hashMod (key value : Option CString) : Option (ℤ × Ledger) :=
  match key with
  | none => some (-1, s)
  | some key =>
    (s.hash.chainOf key).bind fun (idx, chain) =>
    match locate key chain with
    | none => some (1, s)
    | some (l, node, r) =>
      value.bind fun value =>
      (s.chain idx)[l.length]?.bind fun b =>
      ((s.stock.kvsFree b.value).kvsMalloc (value.length + 1)).bind fun (kvalue, stock) =>
      some (0, { s.setBlocks idx ((s.chain idx).set l.length { b with value := kvalue }) with
        hash := s.hash.setChain idx (l ++ { node with value := .str value } :: r)
        stock := stock })

/-- `kvs_hash_del`. At the head of a chain only the node is released. -/
def hashDel (key : Option CString) : Option (ℤ × Ledger) :=
  match key with
  | none => some (-2, s)
  | some key =>
    (s.hash.chainOf key).bind fun (idx, chain) =>
    match chain with
    | [] => some (-1, s)
    | head :: next =>
      if CString.strcmp head.key key = 0 then
        (s.chain idx)[0]?.bind fun b =>
        let hash := s.hash.setChain idx next
        some (0, { s.setBlocks idx ((s.chain idx).eraseIdx 0) with
          hash := { hash with count := hash.count - 1 }, stock := s.stock.kvsFree b.node })
      else
        match locate key next with
        | none => some (-1, s)
        | some (l, _, r) =>
          (s.chain idx)[l.length + 1]?.bind fun b =>
          let hash := s.hash.setChain idx (head :: (l ++ r))
          some (0, { s.setBlocks idx ((s.chain idx).eraseIdx (l.length + 1)) with
            hash := { hash with count := hash.count - 1 }
            stock := ((s.stock.kvsFree b.key).kvsFree b.value).kvsFree b.node })

end Ledger

/-- The calls of the engines, with null arguments too. -/
inductive BlockCall
  | set (e : Engine) (key value : Option CString)
  | mod (e : Engine) (key value : Option CString)
  | del (e : Engine) (key : Option CString)

/-- One call; `n` bounds the rounds of the loops in the tree. -/
def Ledger.step (s : Ledger) (c : ℕ × BlockCall) : Option (ℤ × Ledger) :=
  match c.2 with
  | .set .array key value => s.arraySet key value
  | .set .tree key value => s.rbtreeSet c.1 key value
  | .set .hash key value => s.hashSet key value
  | .mod .array key value => s.arrayMod key value
  | .mod .tree key value => s.rbtreeMod c.1 key value
  | .mod .hash key value => s.hashMod key value
  | .del .array key => s.arrayDel key
  | .del .tree key => s.rbtreeDel c.1 key
  | .del .hash key => s.hashDel key

end KvStore
