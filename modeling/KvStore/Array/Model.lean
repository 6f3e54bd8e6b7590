import KvStore.Lib.CString
import KvStore.Lib.KeyValue

/-! The array engine of `kvs_array.c`: `KVS_ARRAY_SIZE` slots behind one mutex. A call gives
`none` when it does not come back: it waits for a mutex that nobody releases, reads a slot that
was never written or lies outside the table, compares with a `NULL` key, or releases a value
twice. -/
namespace KvStore
open KeyValue

def kvsArraySize : ℕ := 1024

/-- `kvs_array_item_t`. -/
structure ArrayItem where
  key : CharPtr
  value : CharPtr
  deriving DecidableEq

namespace ArrayItem

def live (k v : CString) : ArrayItem := ⟨.str k, .str v⟩
def hole : ArrayItem := ⟨.null, .null⟩
def unwritten : ArrayItem := ⟨.uninit, .uninit⟩

end ArrayItem

/-- `kvs_array_t`, with the state of its mutex. -/
structure KvsArray where
  table : ℕ → ArrayItem
  total : ℕ
  locked : Bool

/-- What `kvs_malloc` answers to the requests for a copy of the key and of the value. -/
structure ArrayAlloc where
  key : Bool
  value : Bool

namespace KvsArray

/-- `pthread_mutex_lock`; it waits forever when the mutex is held. -/
def lock (inst : KvsArray) : Option KvsArray :=
  if inst.locked then none else some { inst with locked := true }

/-- `pthread_mutex_unlock`. -/
def unlock (inst : KvsArray) : KvsArray := { inst with locked := false }

def setItem (inst : KvsArray) (i : ℕ) (x : ArrayItem) : KvsArray :=
  { inst with table := Function.update inst.table i x }

/-- The loop that looks for a key from slot `i` on, with `n` slots to go. `checked` tells whether
the call looks for a `NULL` key before it compares. -/
def scan (checked : Bool) (table : ℕ → ArrayItem) (key : CString) (i : ℕ) : ℕ → Option (Option ℕ)
  | 0 => some none
  | n + 1 =>
    if kvsArraySize ≤ i then none
    else
      match (table i).key with
      | .str s =>
        if CString.strcmp s key = 0 then some (some i) else scan checked table key (i + 1) n
      | .null => if checked then scan checked table key (i + 1) n else none
      | .uninit => none
      | .freed => none

/-- The loop of `kvs_array_set` that looks for a slot to fill again. -/
def scanHole (table : ℕ → ArrayItem) (i : ℕ) : ℕ → Option (Option ℕ)
  | 0 => some none
  | n + 1 =>
    if kvsArraySize ≤ i then none
    else
      match (table i).key with
      | .str _ => scanHole table (i + 1) n
      | .null => some (some i)
      | .uninit => none
      | .freed => none

end KvsArray

open KvsArray

/-- `kvs_array_create`: the slots are as `kvs_malloc` left them. -/
def kvsArrayCreate : KvsArray := ⟨fun _ => .unwritten, 0, false⟩

/-- A hole that is filled again counts in `total` a second time. -/
def kvsArraySet (inst : KvsArray) (m : ArrayAlloc) (key value : Option CString) :
    Option (ℤ × KvsArray) :=
  inst.lock.bind fun inst =>
  match key, value with
  | some key, some value =>
    if inst.total = kvsArraySize then some (-1, inst.unlock)
    else
      (scan true inst.table key 0 inst.total).bind fun found =>
      match found with
      | some _ => some (1, inst.unlock)
      | none =>
        if !m.key then some (-2, inst.unlock)
        else if !m.value then some (-2, inst.unlock)
        else
          (scanHole inst.table 0 inst.total).bind fun hole =>
          match hole with
          | some i =>
            let inst := inst.setItem i (.live key value)
            some (0, { inst with total := inst.total + 1 }.unlock)
          | none =>
            if inst.total < kvsArraySize then
              let inst := inst.setItem inst.total (.live key value)
              some (0, { inst with total := inst.total + 1 }.unlock)
            else some (0, inst.unlock)
  | _, _ => some (-1, inst.unlock)

/-- The check of the key returns without releasing the mutex. -/
def kvsArrayGet (inst : KvsArray) (key : Option CString) : Option (CharPtr × KvsArray) :=
  inst.lock.bind fun inst =>
  match key with
  | none => some (.null, inst)
  | some key =>
    (scan true inst.table key 0 inst.total).bind fun found =>
    match found with
    | some i => some ((inst.table i).value, inst.unlock)
    | none => some (.null, inst.unlock)

/-- The scan has no check for holes, and its last index is the answer for an absent key. The
check of the key returns without releasing the mutex. -/
def kvsArrayDel (inst : KvsArray) (key : Option CString) : Option (ℤ × KvsArray) :=
  inst.lock.bind fun inst =>
  match key with
  | none => some (-1, inst)
  | some key =>
    (scan false inst.table key 0 inst.total).bind fun found =>
    match found with
    | some i =>
      if (inst.table i).value = .freed then none
      else
        let inst := inst.setItem i .hole
        if inst.total - 1 = i then some (0, { inst with total := inst.total - 1 }.unlock)
        else some (0, inst.unlock)
    | none => some (inst.total, inst.unlock)

/-- The old value is released before memory for the new one is asked for. The check of the
arguments returns without releasing the mutex. -/
def kvsArrayMod (inst : KvsArray) (room : Bool) (key value : Option CString) :
    Option (ℤ × KvsArray) :=
  inst.lock.bind fun inst =>
  match key, value with
  | some key, some value =>
    if inst.total = 0 then some (kvsArraySize, inst.unlock)
    else
      (scan true inst.table key 0 inst.total).bind fun found =>
      match found with
      | some i =>
        if (inst.table i).value = .freed then none
        else if !room then
          some (-2, (inst.setItem i { inst.table i with value := .freed }).unlock)
        else some (0, (inst.setItem i { inst.table i with value := .str value }).unlock)
      | none => some (inst.total, inst.unlock)
  | _, _ => some (-1, inst)

def kvsArrayExist (inst : KvsArray) (key : Option CString) : Option (ℤ × KvsArray) :=
  inst.lock.bind fun inst =>
  match key with
  | none => some (-1, inst.unlock)
  | some key =>
    (scan true inst.table key 0 inst.total).bind fun found =>
    match found with
    | some _ => some (0, inst.unlock)
    | none => some (1, inst.unlock)

namespace KvsArray

/-- A call of the engine with the answers that `kvs_malloc` has for it. -/
structure Request where
  room : ArrayAlloc
  call : Call CString CString

def call (a : KvsArray) (q : Request) : Option (Reply CharPtr × KvsArray) :=
  match q.call with
  | .set k v => (kvsArraySet a q.room (some k) (some v)).map fun r => (.status r.1, r.2)
  | .get k => (kvsArrayGet a (some k)).map fun r => (.value r.1, r.2)
  | .mod k v => (kvsArrayMod a q.room.value (some k) (some v)).map fun r => (.status r.1, r.2)
  | .del k => (kvsArrayDel a (some k)).map fun r => (.status r.1, r.2)
  | .exist k => (kvsArrayExist a (some k)).map fun r => (.status r.1, r.2)

end KvsArray
end KvStore
