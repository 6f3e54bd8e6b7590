import KvStore.Rbtree.Map
import KvStore.Rdb.Restore

/-! The records of engines that hold maps, as a save writes them and as they stand in the file. -/
namespace KvStore
open KeyValue

/-- The string at the end of a pointer. -/
def CharPtr.string : CharPtr → CString
  | .str s => s
  | _ => .empty

def ArrayItem.record (x : ArrayItem) : RdbRecord := ⟨0, x.key.string, x.value.string⟩

def HashNode.entryRecord (x : HashNode) : RdbRecord := ⟨2, x.key, x.value.string⟩

def KvsArray.records (a : KvsArray) : List RdbRecord :=
  (List.range' 0 a.total).map fun i => (a.table i).record

def HashTable.records (h : HashTable) : List RdbRecord := h.entries.map HashNode.entryRecord

/-- The entries of the array and of the hash table. -/
def Engines.records (e : Engines) : List RdbRecord := e.array.records ++ e.hash.records

section Entries

variable {a : KvsArray} {h : HashTable} {m ma mh : CString → Option CString} {t : ℕ → ArrayItem}
  {i n : ℕ} {e : Engines}

/-- The loop over slots that are all live pairs. -/
theorem arrayRecords_live (hn : i + n ≤ kvsArraySize)
    (hlive : ∀ j, i ≤ j → j < i + n → ∃ k v, t j = .live k v) :
    arrayRecords t i n = some ((List.range' i n).map fun j => (t j).record) := by
  induction n generalizing i with
  | zero => rfl
  | succ n ih =>
    obtain ⟨k, v, hi⟩ := hlive i le_rfl (by omega)
    have hrest := ih (i := i + 1) (by omega) fun j hj hjn => hlive j (by omega) (by omega)
    rw [arrayRecords, if_neg (by omega), hi, hrest, List.range'_succ, List.map_cons, hi]
    rfl

theorem KvsArray.Dense.arrayRecords (ha : a.Dense m) :
    arrayRecords a.table 0 a.total = some a.records := by
  apply arrayRecords_live
  · have := ha.bound
    omega
  · intro j _ hj
    exact ha.live j (by omega)

theorem KvsArray.Dense.represents (ha : a.Dense m) :
    Represents (a.records.map fun r => (r.key, r.value)) m := by
  constructor
  · rw [KvsArray.records, List.map_map, List.map_map]
    apply List.Nodup.map_on _ List.nodup_range'
    intro i hi j hj he
    obtain ⟨k, v, hik⟩ := ha.live i (by simpa using hi)
    obtain ⟨k', v', hjk⟩ := ha.live j (by simpa using hj)
    simp only [Function.comp_apply, hik, hjk] at he
    have hkey : k = k' := he
    exact ha.distinct i j k (by rw [hik]; rfl) (by rw [hjk, hkey]; rfl)
  · intro k v
    rw [ha.stores k v, KvsArray.records, List.map_map, List.mem_map]
    constructor
    · rintro ⟨i, hi⟩
      have hlt := (ha.toTidy.live_of_key (i := i) (k := k) (by rw [hi]; rfl)).1
      refine ⟨i, by simpa using hlt, ?_⟩
      rw [Function.comp_apply, hi]
      rfl
    · rintro ⟨i, hi, he⟩
      obtain ⟨k', v', hik⟩ := ha.live i (by simpa using hi)
      rw [Function.comp_apply, hik] at he
      cases he
      exact ⟨i, hik⟩

theorem mapM_some {α β : Type*} {f : α → Option β} {g : α → β} {l : List α}
    (h : ∀ a ∈ l, f a = some (g a)) : l.mapM f = some (l.map g) := by
  induction l with
  | nil => rfl
  | cons a l ih =>
    rw [List.mapM_cons, h a List.mem_cons_self, ih fun b hb => h b (List.mem_cons_of_mem a hb)]
    rfl

/-- The record of the tree is the one of its root. -/
theorem Rbtree.Maps.rbtreeRecords {T : Rbtree} {m : CString → Option CString} (h : T.Maps m) :
    (rbtreeRecords T = some [] ∧ ∀ k, m k = none) ∨
      ∃ k v, rbtreeRecords T = some [⟨1, k, v⟩] ∧ m k = some v := by
  obtain ⟨t, hT, hm⟩ := h
  have hroot := hT.repr.root
  cases t with
  | nil =>
    refine .inl ⟨?_, fun k => ?_⟩
    · rw [rbtreeRecords_eq_nil]
      exact .inr hroot
    · have hnone := hm.eq_none (k := k) List.not_mem_nil
      rwa [strings, Option.map_eq_none_iff] at hnone
  | node c l a r =>
    have ha := @Rbtree.Repr.nodeAt T [] .left c l r a hT.repr
    have hn := hT.repr.nodup
    have hcell : a ∈ (RedBlack.RBTree.node c l a r).toList := by simp [RedBlack.RBTree.toList]
    have hmem : a.ptr ∈ ptrs (.node c l a r) := List.mem_map_of_mem hcell
    simp only [List.nodup_cons, List.mem_cons, not_or] at hn
    have hne : T.root ≠ null ∧ T.root ≠ T.nil := by
      rw [hroot]
      exact ⟨fun he => hn.1.2 (he ▸ hmem), fun he => hn.2.1 (he ▸ hmem)⟩
    have hs : strings m a.key = some a.value :=
      (hm.mem_iff _ _).mpr (List.mem_map_of_mem (f := Cell.entry) hcell)
    obtain ⟨v, hv, hval⟩ := Option.map_eq_some_iff.mp hs
    refine .inr ⟨a.key, v, ?_, hv⟩
    have hroot' : T.root = a.ptr := hroot
    rw [KvStore.rbtreeRecords, if_pos hne, hroot', ha.value, ha.key, ← hval]

/-- Every node of a table that stores a map has a value. -/
theorem HashTable.Maps.value {x : HashNode} (hm : h.Maps m) (hx : x ∈ h.entries) :
    ∃ v, m x.key = some v ∧ x.value = .str v := by
  have hs : strings m x.key = some x.value :=
    (hm.represents.mem_iff _ _).mpr (List.mem_map.mpr ⟨x, hx, rfl⟩)
  obtain ⟨v, hv, he⟩ := Option.map_eq_some_iff.mp hs
  exact ⟨v, hv, he.symm⟩

theorem HashTable.Maps.hashRecords (hm : h.Maps m) : hashRecords h = some h.records := by
  have hchain : ∀ i ∈ List.finRange maxTableSize,
      (h.nodes i).bind (fun chain => chain.mapM HashNode.record) =
        some ((h.chain i).map HashNode.entryRecord) := by
    intro i hi
    obtain ⟨l, hl⟩ := Option.isSome_iff_exists.mp (hm.chained i)
    have hc : h.chain i = l := by simp [HashTable.chain, hl]
    rw [hl, Option.bind_some, hc]
    apply mapM_some
    intro x hx
    have hmem : x ∈ h.entries := List.mem_flatMap.mpr ⟨i, hi, hc ▸ hx⟩
    obtain ⟨v, -, hv⟩ := hm.value hmem
    simp [HashNode.record, HashNode.entryRecord, hv, CharPtr.string]
  rw [KvStore.hashRecords, mapM_some hchain, HashTable.records, HashTable.entries, List.map_flatMap]
  rfl

theorem HashTable.Maps.represents_records (hm : h.Maps m) :
    Represents (h.records.map fun r => (r.key, r.value)) m := by
  constructor
  · have hn := hm.represents.nodup
    rw [keys_entries] at hn
    rw [HashTable.records, List.map_map, List.map_map]
    exact hn
  · intro k v
    have hs := hm.represents.mem_iff k (.str v)
    have hkv : strings m k = some (.str v) ↔ m k = some v := by
      rw [strings, Option.map_eq_some_iff]
      constructor
      · rintro ⟨w, hw, he⟩
        cases he
        exact hw
      · intro hv
        exact ⟨v, hv, rfl⟩
    rw [← hkv, hs, HashTable.records, List.map_map, List.mem_map, List.mem_map]
    constructor
    · rintro ⟨x, hx, he⟩
      refine ⟨x, hx, ?_⟩
      obtain ⟨rfl, hv⟩ := Prod.mk.inj he
      rw [Function.comp_apply, HashNode.entryRecord, hv]
      rfl
    · rintro ⟨x, hx, he⟩
      refine ⟨x, hx, ?_⟩
      obtain ⟨w, -, hw⟩ := hm.value hx
      rw [Function.comp_apply, HashNode.entryRecord, hw] at he
      cases he
      rw [HashNode.entry, hw]
      rfl

theorem KvsArray.records_type {r : RdbRecord} (hr : r ∈ a.records) : r.type = 0 := by
  obtain ⟨i, -, rfl⟩ := List.mem_map.mp hr
  rfl

theorem HashTable.records_type {r : RdbRecord} (hr : r ∈ h.records) : r.type = 2 := by
  obtain ⟨x, -, rfl⟩ := List.mem_map.mp hr
  rfl

/-- A save writes the records of the array before those of the table. -/
theorem Engines.Keep.saves (h : e.Keep ma mh) : Saves e e.array.records e.hash.records :=
  ⟨h.array.arrayRecords, [], e.hash.records, h.tree, h.hash.hashRecords, (List.nil_append _).symm⟩

theorem Engines.Keep.stored_array (h : e.Keep ma mh) : stored 0 e.records = ma := by
  funext k
  have hhash : stored 0 e.hash.records k = none := by
    rw [stored_eq_none]
    intro r hr
    simp [HashTable.records_type hr]
  rw [Engines.records, stored_append, hhash, Option.or_none,
    stored_eq (fun r hr => KvsArray.records_type hr) h.array.represents]

theorem Engines.Keep.stored_hash (h : e.Keep ma mh) : stored 2 e.records = mh := by
  funext k
  have harray : stored 2 e.array.records k = none := by
    rw [stored_eq_none]
    intro r hr
    simp [KvsArray.records_type hr]
  rw [Engines.records, stored_append, harray, Option.none_or,
    stored_eq (fun r hr => HashTable.records_type hr) h.hash.represents_records]

theorem nodup_of_represents {l : List RdbRecord} (hm : Represents (l.map fun r => (r.key, r.value)) m) :
    (l.map fun r => (r.type, r.key)).Nodup := by
  have hn := hm.nodup
  rw [List.map_map] at hn
  apply List.Nodup.of_map Prod.snd
  rw [List.map_map]
  exact hn

theorem Engines.Keep.nodup (h : e.Keep ma mh) :
    (e.records.map fun r => (r.type, r.key)).Nodup := by
  rw [Engines.records, List.map_append]
  apply List.Nodup.append (nodup_of_represents h.array.represents)
    (nodup_of_represents h.hash.represents_records)
  intro p hp hp'
  obtain ⟨r, hr, rfl⟩ := List.mem_map.mp hp
  obtain ⟨r', hr', he⟩ := List.mem_map.mp hp'
  have ht := congrArg Prod.fst he
  dsimp only at ht
  rw [HashTable.records_type hr', KvsArray.records_type hr] at ht
  exact absurd ht (by decide)

end Entries

end KvStore
