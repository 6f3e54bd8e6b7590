import KvStore.Array.Dense
import KvStore.Hash.Map
import KvStore.Rdb.Failure
import KvStore.Rdb.Load

/-! From the records of a file back to the engines. The records that a save writes for the array
and the hash table are their entries, and passing records to fresh engines stores exactly these. -/
namespace KvStore
open KeyValue

/-- What the system answers to the `set` calls for one record. -/
structure EngineAlloc where
  array : ArrayAlloc
  node : NodeAlloc
  hash : HashAlloc

/-- The `switch` of `kvs_rdb_load` over the type of a record; what the engine answers is not
looked at. -/
def passRecord (n : ℕ) (w : EngineAlloc) (e : Engines) (r : RdbRecord) : Option Engines :=
  if r.type = 0 then
    (kvsArraySet e.array w.array (some r.key) (some r.value)).map fun x => { e with array := x.2 }
  else if r.type = 1 then
    (kvsRbtreeSet n e.rbtree w.node (some r.key) (some r.value)).map fun x =>
      { e with rbtree := x.2 }
  else if r.type = 2 then
    (kvsHashSet e.hash w.hash (some r.key) (some r.value)).map fun x => { e with hash := x.2 }
  else some e

/-- The records of a load from number `i` on, passed to the engines. -/
def passRecords (n : ℕ) (w : ℕ → EngineAlloc) : ℕ → Engines → List RdbRecord → Option Engines
  | _, e, [] => some e
  | i, e, r :: rs => (passRecord n (w i) e r).bind fun e => passRecords n w (i + 1) e rs

/-- The value in the first record of a type with a key. -/
def stored (t : UInt8) (rs : List RdbRecord) (k : CString) : Option CString :=
  (rs.find? fun r => r.type = t ∧ r.key = k).map RdbRecord.value

section Stored

variable {t : UInt8} {r : RdbRecord} {rs rs' : List RdbRecord} {k v : CString}

theorem stored_cons : stored t (r :: rs) k =
    (if r.type = t ∧ r.key = k then some r.value else none).or (stored t rs k) := by
  by_cases h : r.type = t ∧ r.key = k
  · simp [stored, h]
  · simp [stored, h]

theorem stored_append : stored t (rs ++ rs') k = (stored t rs k).or (stored t rs' k) := by
  induction rs with
  | nil => rfl
  | cons r rs ih => rw [List.cons_append, stored_cons, ih, stored_cons, Option.or_assoc]

theorem stored_eq_none : stored t rs k = none ↔ ∀ r ∈ rs, ¬ (r.type = t ∧ r.key = k) := by
  simp [stored]

/-- When no type and key occur twice, every record is found. -/
theorem stored_of_mem (hn : (rs.map fun r => (r.type, r.key)).Nodup) (hr : r ∈ rs) :
    stored r.type rs r.key = some r.value := by
  induction rs with
  | nil => cases hr
  | cons x rs ih =>
    rw [List.map_cons, List.nodup_cons] at hn
    rw [stored_cons]
    obtain rfl | hr' := List.mem_cons.mp hr
    · simp
    · have hne : ¬ (x.type = r.type ∧ x.key = r.key) := by
        rintro ⟨ht, hk⟩
        apply hn.1
        exact List.mem_map.mpr ⟨r, hr', by rw [ht, hk]⟩
      rw [if_neg hne, Option.none_or]
      exact ih hn.2 hr'

/-- A part of the records misses the values of the others. -/
theorem eq_nil_of_stored (hn : ((rs ++ rs').map fun r => (r.type, r.key)).Nodup)
    (h : ∀ r ∈ rs', stored r.type rs r.key = stored r.type (rs ++ rs') r.key) : rs' = [] := by
  cases rs' with
  | nil => rfl
  | cons r rs' =>
    have hr := h r List.mem_cons_self
    rw [stored_of_mem hn (by simp)] at hr
    have hnone : stored r.type rs r.key = none := by
      rw [stored_eq_none]
      rintro x hx ⟨ht, hk⟩
      rw [List.map_append, List.map_cons, List.nodup_middle, List.nodup_cons] at hn
      apply hn.1
      rw [← List.map_append, List.mem_map]
      exact ⟨x, List.mem_append_left _ hx, by rw [ht, hk]⟩
    rw [hnone] at hr
    cases hr

/-- Records of one type that represent a map. -/
theorem stored_eq {m : CString → Option CString} (ht : ∀ r ∈ rs, r.type = t)
    (hm : Represents (rs.map fun r => (r.key, r.value)) m) : stored t rs = m := by
  funext k
  cases hs : stored t rs k with
  | none =>
    symm
    apply hm.eq_none
    rw [stored_eq_none] at hs
    simp only [List.map_map, List.mem_map, Function.comp_apply, not_exists, not_and]
    intro r hr hk
    exact hs r hr ⟨ht r hr, hk⟩
  | some v =>
    symm
    rw [hm.mem_iff, List.mem_map]
    obtain ⟨r, hr, hv⟩ := Option.map_eq_some_iff.mp hs
    have hfound := List.find?_some hr
    simp only [decide_eq_true_eq] at hfound
    exact ⟨r, List.mem_of_find?_eq_some hr, by rw [hfound.2, hv]⟩

end Stored

section Keep

variable {e e' : Engines} {ma mh : CString → Option CString} {r : RdbRecord} {rs : List RdbRecord}
  {w : ℕ → EngineAlloc} {n i : ℕ}

/-- The array and the hash table hold maps, and the tree holds nothing. -/
structure Engines.Keep (e : Engines) (ma mh : CString → Option CString) : Prop where
  array : e.array.Dense ma
  hash : e.hash.Maps mh
  tree : rbtreeRecords e.rbtree = some []

/-- There is memory for every copy and every node of the hash table. -/
def Roomy (w : ℕ → EngineAlloc) : Prop :=
  ∀ i, (w i).array = ⟨true, true⟩ ∧ (w i).hash = ⟨true, true, true⟩

theorem Engines.Keep.pass_array (h : e.Keep ma mh) (hw : Roomy w)
    (hroom : e.array.total < kvsArraySize) (ht : r.type = 0) : ∃ e',
    passRecord n (w i) e r = some e' ∧ e'.Keep (next ma (.set r.key r.value)) mh ∧
      e'.array.total ≤ e.array.total + 1 := by
  obtain ⟨a, hset, ha, hle⟩ := h.array.set (hw i).1 hroom r.key r.value
  exact ⟨{ e with array := a }, by simp [passRecord, ht, hset], ⟨ha, h.hash, h.tree⟩, hle⟩

theorem Engines.Keep.pass_hash (h : e.Keep ma mh) (hw : Roomy w) (ht : r.type = 2)
    (hk : HashTable.InRange r.key) : ∃ e',
    passRecord n (w i) e r = some e' ∧ e'.Keep ma (next mh (.set r.key r.value)) ∧
      e'.array = e.array := by
  obtain ⟨t, hset, hm⟩ := h.hash.set hk r.value
  rw [← (hw i).2] at hset
  exact ⟨{ e with hash := t }, by simp [passRecord, ht, hset], ⟨h.array, hm, h.tree⟩, rfl⟩

/-- Passing records adds what they store. -/
theorem Engines.Keep.pass (h : e.Keep ma mh) (hw : Roomy w)
    (hrs : ∀ r ∈ rs, r.type = 0 ∨ r.type = 2 ∧ HashTable.InRange r.key)
    (hroom : e.array.total + (rs.filter (·.type = 0)).length ≤ kvsArraySize) : ∃ e',
    passRecords n w i e rs = some e' ∧
      e'.Keep (fun k => (ma k).or (stored 0 rs k)) (fun k => (mh k).or (stored 2 rs k)) := by
  induction rs generalizing e ma mh i with
  | nil => exact ⟨e, rfl, by simpa [stored] using h⟩
  | cons r rs ih =>
    have hrs' : ∀ r ∈ rs, r.type = 0 ∨ r.type = 2 ∧ HashTable.InRange r.key :=
      fun x hx => hrs x (List.mem_cons_of_mem r hx)
    obtain ht | ⟨ht, hk⟩ := hrs r List.mem_cons_self
    · rw [List.filter_cons, if_pos (by simpa using ht), List.length_cons] at hroom
      obtain ⟨e₁, hpass, h₁, hle⟩ := h.pass_array (n := n) (i := i) hw (by omega) ht
      obtain ⟨e', hrest, h'⟩ := ih (i := i + 1) h₁ hrs' (by omega)
      refine ⟨e', by rw [passRecords, hpass, Option.bind_some, hrest], ?_⟩
      simpa only [stored_cons, next_set, ht, true_and, Option.or_assoc,
        show ¬ ((0 : UInt8) = 2) by decide, false_and, if_false, Option.none_or] using h'
    · have hne : r.type ≠ 0 := by
        rw [ht]
        decide
      rw [List.filter_cons, if_neg (by simpa using hne)] at hroom
      obtain ⟨e₁, hpass, h₁, ha⟩ := h.pass_hash (n := n) (i := i) hw ht hk
      obtain ⟨e', hrest, h'⟩ := ih (i := i + 1) h₁ hrs' (by rwa [ha])
      refine ⟨e', by rw [passRecords, hpass, Option.bind_some, hrest], ?_⟩
      simpa only [stored_cons, next_set, ht, true_and, Option.or_assoc,
        show ¬ ((2 : UInt8) = 0) by decide, false_and, if_false, Option.none_or] using h'

end Keep

end KvStore
