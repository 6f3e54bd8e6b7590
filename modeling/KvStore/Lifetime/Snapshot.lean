import KvStore.Lifetime.Model
import KvStore.Rdb.Durable

/-! A snapshot of three engines that hold maps, and the engines that a start makes of it: the array
and the hash table come back as they were, of the tree only its root. -/
namespace KvStore
open KeyValue Fuel

/-- What the three engines hold. -/
abbrev EngineMaps := Engine → CString → Option CString

def EngineMaps.empty : EngineMaps := fun _ _ => none

/-- The type of the records of an engine. -/
def Engine.recordType : Engine → UInt8
  | array => 0
  | tree => 1
  | hash => 2

theorem Engine.recordType_injective : Function.Injective Engine.recordType := by
  intro x y h
  revert h
  cases x <;> cases y <;> decide

theorem Engine.recordType_le (x : Engine) : x.recordType ≤ 2 := by
  cases x <;> decide

/-- The maps that records stand for. -/
def storedMaps (rs : List RdbRecord) : EngineMaps := fun x => stored x.recordType rs

structure Engines.Hold (e : Engines) (M : EngineMaps) : Prop where
  array : e.array.Dense (M .array)
  tree : e.rbtree.Maps (M .tree)
  hash : e.hash.Maps (M .hash)

section Pass

variable {S : Type*} {e : Engines} {M : EngineMaps} {w : ℕ → EngineAlloc} {block : ℕ → Ptr} {i : ℕ}
  {r : RdbRecord} {rs : List RdbRecord} {x : Engine}

/-- There is memory for every record, and a block of its own for each node of the tree. -/
structure Supplies (w : ℕ → EngineAlloc) (block : ℕ → Ptr) : Prop where
  array : ∀ i, (w i).array = ⟨true, true⟩
  hash : ∀ i, (w i).hash = ⟨true, true, true⟩
  node : ∀ i, (w i).node = ⟨some (block i), true, true⟩
  injective : Function.Injective block

/-- One record is set in its engine. -/
theorem Engines.Hold.passRecord (h : e.Hold M) (hw : Supplies w block)
    (hfree : ∀ j, i ≤ j → e.rbtree.Free (block j))
    (hroom : x = .array → e.array.total < kvsArraySize) (hr : r.type = x.recordType)
    (hk : x = .hash → HashTable.InRange r.key) :
    ∃ e', Returns (fun n => passRecord n (w i) e r) e' ∧
      e'.Hold (Function.update M x (next (M x) (.set r.key r.value))) ∧
      e'.array.total ≤ e.array.total + (if x = .array then 1 else 0) ∧
      ∀ j, i + 1 ≤ j → e'.rbtree.Free (block j) := by
  have hfree' : ∀ j, i + 1 ≤ j → e.rbtree.Free (block j) := fun j hj => hfree j (by omega)
  cases x with
  | array =>
    obtain ⟨a, hset, ha, hle⟩ := h.array.set (hw.array i) (hroom rfl) r.key r.value
    refine ⟨{ e with array := a }, .of_eq fun n => ?_, ⟨?_, ?_, ?_⟩, ?_, hfree'⟩
    · have ht : r.type = 0 := hr
      simp only [KvStore.passRecord, ht, if_true, hset, Option.map_some]
    · rwa [Function.update_self]
    · rw [Function.update_of_ne (by decide)]
      exact h.tree
    · rw [Function.update_of_ne (by decide)]
      exact h.hash
    · rwa [if_pos rfl]
  | tree =>
    have hz := hfree i le_rfl
    obtain ⟨T, hset, hT, hblocks⟩ := h.tree.set_block hz true true r.key r.value
    rw [Bool.and_self, if_pos rfl, ← hw.node i] at hset
    rw [Bool.and_self, if_pos rfl] at hT
    refine ⟨{ e with rbtree := T }, ?_, ⟨?_, ?_, ?_⟩, Nat.le_add_right _ _, ?_⟩
    · have ht : r.type = 1 := hr
      have hne : ¬ ((1 : UInt8) = 0) := by decide
      have hmap := hset.bind (g := fun x _ => some ({ e with rbtree := x.2 } : Engines)) (.some _)
      apply hmap.congr
      intro n
      simp only [KvStore.passRecord, ht, hne, if_true, if_false, Option.map_eq_bind]
      rfl
    · rw [Function.update_of_ne (by decide)]
      exact h.array
    · rwa [Function.update_self]
    · rw [Function.update_of_ne (by decide)]
      exact h.hash
    · intro j hj
      refine hblocks _ (fun he => ?_) (hfree' j hj)
      have := hw.injective he
      omega
  | hash =>
    obtain ⟨t, hset, ht⟩ := h.hash.set (hk rfl) r.value
    rw [← hw.hash i] at hset
    refine ⟨{ e with hash := t }, .of_eq fun n => ?_, ⟨?_, ?_, ?_⟩, Nat.le_add_right _ _, hfree'⟩
    · have ht : r.type = 2 := hr
      have h20 : ¬ ((2 : UInt8) = 0) := by decide
      have h21 : ¬ ((2 : UInt8) = 1) := by decide
      simp only [KvStore.passRecord, ht, h20, h21, if_true, if_false, hset, Option.map_some]
    · rw [Function.update_of_ne (by decide)]
      exact h.array
    · rw [Function.update_of_ne (by decide)]
      exact h.tree
    · rwa [Function.update_self]

theorem storedMaps_cons (hr : r.type = x.recordType) (y : Engine) (k : CString) :
    (M y k).or (storedMaps (r :: rs) y k) =
      (Function.update M x (next (M x) (.set r.key r.value)) y k).or (storedMaps rs y k) := by
  rw [storedMaps, stored_cons, hr]
  by_cases hy : y = x
  · subst hy
    simp only [true_and, Function.update_self, next_set, Option.or_assoc]
    rfl
  · have hne : x.recordType ≠ y.recordType := fun h => hy (Engine.recordType_injective h).symm
    rw [if_neg (fun h => hne h.1), Option.none_or, Function.update_of_ne hy]
    rfl

/-- The records that a start passes on add what they store. -/
theorem Engines.Hold.pass (h : e.Hold M) (hw : Supplies w block)
    (hfree : ∀ j, i ≤ j → e.rbtree.Free (block j))
    (hrs : ∀ r ∈ rs, ∃ x : Engine, r.type = x.recordType ∧ (x = .hash → HashTable.InRange r.key))
    (hroom : e.array.total + (rs.filter (·.type = 0)).length ≤ kvsArraySize) :
    ∃ e', Returns (fun n => passRecords n w i e rs) e' ∧
      e'.Hold fun x k => (M x k).or (storedMaps rs x k) := by
  induction rs generalizing e M i with
  | nil =>
    refine ⟨e, .some e, ?_⟩
    have hM : (fun x k => (M x k).or (storedMaps [] x k)) = M := by
      funext x k
      exact Option.or_none
    rwa [hM]
  | cons r rs ih =>
    obtain ⟨x, hr, hk⟩ := hrs r List.mem_cons_self
    have htype : r.type = 0 ↔ x = .array := by
      rw [hr]
      cases x <;> decide
    have hcount : ((r :: rs).filter (·.type = 0)).length =
        (if x = .array then 1 else 0) + (rs.filter (·.type = 0)).length := by
      by_cases hx : x = .array
      · rw [List.filter_cons, if_pos (decide_eq_true (htype.mpr hx)), if_pos hx, List.length_cons,
          Nat.add_comm]
      · rw [List.filter_cons, if_neg (by simpa using htype.not.mpr hx), if_neg hx, Nat.zero_add]
    rw [hcount] at hroom
    have hfirst : x = .array → e.array.total < kvsArraySize := by
      intro hx
      rw [if_pos hx] at hroom
      omega
    obtain ⟨e₁, hpass, h₁, hle, hfree₁⟩ := h.passRecord hw hfree hfirst hr hk
    obtain ⟨e', hrest, h'⟩ := ih (i := i + 1) h₁ hfree₁
      (fun y hy => hrs y (List.mem_cons_of_mem r hy)) (by omega)
    refine ⟨e', hpass.bind (g := fun e n => passRecords n w (i + 1) e rs) hrest, ?_⟩
    have hmaps : (fun y k => (M y k).or (storedMaps (r :: rs) y k)) = fun y k =>
        (Function.update M x (next (M x) (.set r.key r.value)) y k).or (storedMaps rs y k) := by
      funext y k
      exact storedMaps_cons hr y k
    rwa [hmaps]

end Pass

section Save

variable {e : Engines} {M V D : EngineMaps} {rs tree : List RdbRecord} {cfg : RdbConfig} {io : SaveIO}

/-- A map with one entry of another, if that has any. -/
inductive OneOf (m : CString → Option CString) : (CString → Option CString) → Prop
  | none (h : ∀ k, m k = none) : OneOf m fun _ => none
  | one {k v : CString} (h : m k = some v) : OneOf m (Function.update (fun _ => none) k (some v))

/-- What a snapshot keeps: the array, the hash table, and one entry of the tree. -/
structure SnapshotOf (V D : EngineMaps) : Prop where
  array : D .array = V .array
  hash : D .hash = V .hash
  tree : OneOf (V .tree) (D .tree)

/-- Nothing is in a snapshot that was not in the engines. -/
theorem SnapshotOf.le (h : SnapshotOf V D) {x : Engine} {k v : CString} (hk : D x k = some v) :
    V x k = some v := by
  cases x with
  | array => rwa [← h.array]
  | hash => rwa [← h.hash]
  | tree =>
    obtain ⟨-, -, ht⟩ := h
    generalize D .tree = d at ht hk
    cases ht with
    | none h => cases hk
    | @one j w hj =>
      by_cases hjk : k = j
      · rw [hjk, Function.update_self, Option.some.injEq] at hk
        rw [hjk, hj, hk]
      · rw [Function.update_of_ne hjk] at hk
        cases hk

/-- An entry that requests can make: the loader takes its key, and a reply has room for its value. -/
structure EntryFits (k v : CString) : Prop where
  key_ne : k ≠ .empty
  key_le : k.length ≤ 1024
  inRange : HashTable.InRange k
  value_lt : v.length < resultSize

/-- The maps hold such entries only, and the array and the hash table only the given keys. -/
structure EngineMaps.Within (M : EngineMaps) (A H : Finset CString) : Prop where
  fits : ∀ x k v, M x k = some v → EntryFits k v
  array : ∀ k, (M .array k).isSome → k ∈ A
  hash : ∀ k, (M .hash k).isSome → k ∈ H

variable {A H : Finset CString}

theorem EngineMaps.Within.empty : EngineMaps.empty.Within A H := by
  refine ⟨?_, ?_, ?_⟩
  · intro x k v h
    cases h
  · intro k h
    cases h
  · intro k h
    cases h

theorem SnapshotOf.within (h : SnapshotOf V D) (hV : V.Within A H) : D.Within A H := by
  refine ⟨fun x k v hk => hV.fits x k v (h.le hk), fun k hk => ?_, fun k hk => ?_⟩
  · rw [h.array] at hk
    exact hV.array k hk
  · rw [h.hash] at hk
    exact hV.hash k hk

/-- A record of some engine with such an entry. -/
structure RdbRecord.Loads (r : RdbRecord) : Prop where
  type : ∃ x : Engine, r.type = x.recordType
  entry : EntryFits r.key r.value

theorem RdbRecord.Loads.wellFormed {r : RdbRecord} (hr : r.Loads) : r.raw.WellFormed := by
  obtain ⟨⟨x, hx⟩, hentry⟩ := hr
  refine ⟨?_, ?_, hentry.key_le, lt_trans hentry.value_lt (by decide)⟩
  · rw [RdbRecord.raw, hx]
    exact x.recordType_le
  · apply List.length_pos_iff.mpr
    intro h
    exact hentry.key_ne (CString.ext h)

theorem RdbRecord.Loads.bytes_eq {r : RdbRecord} (hr : r.Loads) : r.bytes = r.raw.bytes :=
  bytes_raw (lt_of_le_of_lt hr.entry.key_le (by decide)) (lt_trans hr.entry.value_lt (by decide))

/-- The most bytes that such a record takes. -/
def fittingBytes : ℕ := 5 + 1024 + 1024

theorem RdbRecord.Loads.length_le {r : RdbRecord} (hr : r.Loads) :
    r.bytes.length ≤ fittingBytes := by
  have hkey := hr.entry.key_le
  have hvalue := hr.entry.value_lt
  rw [CString.length] at hkey hvalue
  rw [hr.bytes_eq, RawRecord.length_bytes, fittingBytes, RdbRecord.raw]
  rw [resultSize] at hvalue
  dsimp only
  omega

theorem length_bytes_le (hrs : ∀ r ∈ rs, r.Loads) :
    (rs.flatMap RdbRecord.bytes).length ≤ rs.length * fittingBytes := by
  induction rs with
  | nil => exact Nat.zero_le _
  | cons r rs ih =>
    have hr := (hrs r List.mem_cons_self).length_le
    have hrest := ih fun x hx => hrs x (List.mem_cons_of_mem r hx)
    rw [List.flatMap_cons, List.length_append, List.length_cons, Nat.succ_mul]
    omega

variable (io) in
/-- A file without checksum gives all of its records back. -/
theorem plainFile_calls {lio : LoadIO} {others : List RdbRecord} (hen : cfg.rdbEnabled = true)
    (hcrc : cfg.rdbCrc64 = false) (hroom : ∀ j, lio.room j = (true, true))
    (hrs : ∀ r ∈ rs ++ others, r.Loads)
    (hsize : ((rs ++ others).flatMap RdbRecord.bytes).length < 2 ^ 32) :
    (kvsRdbLoad cfg lio (some (plainFile cfg io rs others))).calls = rs ++ others := by
  have hraw : (rs ++ others).flatMap RdbRecord.bytes =
      ((rs ++ others).map RdbRecord.raw).flatMap RawRecord.bytes := by
    rw [List.flatMap_map]
    exact List.flatMap_congr fun r hr => (hrs r hr).bytes_eq
  have hholds : Holds (some (plainFile cfg io rs others)) ((rs ++ others).map RdbRecord.raw) := by
    constructor
    · rw [dataRegion, Option.bind_some, plainFile_dataSize, Nat.mod_eq_of_lt hsize, if_neg,
        plainFile_data, List.take_length, hraw]
      rw [plainFile, List.length_append, RdbHeader.length_bytes]
      exact lt_irrefl _
    · intro r hr
      obtain ⟨x, hx, rfl⟩ := List.mem_map.mp hr
      exact (hrs x hx).wellFormed
  rw [hholds.load hen (plainFile_verified hcrc) fun j _ => hroom j]
  exact map_call_raw _

end Save

section Records

variable {e : Engines} {M : EngineMaps} {A H : Finset CString} {l : List (CString × CString)}
  {m : CString → Option CString} {K : Finset CString}

theorem length_le_card (hm : Represents l m) (hK : ∀ k, (m k).isSome → k ∈ K) :
    l.length ≤ K.card := by
  have hsub : (l.map Prod.fst).toFinset ⊆ K := by
    intro k hk
    exact hK k (hm.isSome_iff.mpr (List.mem_toFinset.mp hk))
  have hcard := Finset.card_le_card hsub
  rwa [List.toFinset_card_of_nodup hm.nodup, List.length_map] at hcard

/-- Records of another type store nothing. -/
theorem stored_of_type {t t' : UInt8} {rs : List RdbRecord} (hrs : ∀ r ∈ rs, r.type = t')
    (ht : t' ≠ t) (k : CString) : stored t rs k = none := by
  rw [stored_eq_none]
  rintro r hr ⟨htype, -⟩
  exact ht ((hrs r hr).symm.trans htype)

/-- The records of a save: those of a snapshot, and not too many. -/
structure Recorded (e : Engines) (M : EngineMaps) (A H : Finset CString)
    (array others : List RdbRecord) : Prop where
  saves : Saves e array others
  loads : ∀ r ∈ array ++ others, r.Loads
  snapshot : SnapshotOf M (storedMaps (array ++ others))
  length_le : (array ++ others).length ≤ A.card + H.card + 1
  filter_le : ((array ++ others).filter (·.type = 0)).length ≤ A.card

/-- The record of the tree, if there is one. -/
theorem Engines.Hold.treeRecords (h : e.Hold M) : ∃ tree, rbtreeRecords e.rbtree = some tree ∧
    (∀ r ∈ tree, r.type = 1 ∧ M .tree r.key = some r.value) ∧ tree.length ≤ 1 ∧
    OneOf (M .tree) (stored 1 tree) := by
  obtain ⟨hnil, hno⟩ | ⟨k, v, hrec, hkv⟩ := h.tree.rbtreeRecords
  · exact ⟨[], hnil, by simp, Nat.zero_le 1, .none hno⟩
  · refine ⟨_, hrec, by simpa using hkv, le_rfl, ?_⟩
    have hstored : stored 1 [⟨1, k, v⟩] = Function.update (fun _ => none) k (some v) := by
      funext j
      by_cases hj : k = j
      · subst hj
        simp [stored]
      · simp [stored, hj, Function.update_of_ne (Ne.symm hj)]
    rw [hstored]
    exact .one hkv

theorem Engines.Hold.recorded (h : e.Hold M) (hM : M.Within A H) :
    ∃ array others, Recorded e M A H array others := by
  obtain ⟨tree, htree, hrecs, hlen, hone⟩ := h.treeRecords
  have hA : ∀ r ∈ e.array.records, r.type = 0 := fun r hr => KvsArray.records_type hr
  have hT : ∀ r ∈ tree, r.type = 1 := fun r hr => (hrecs r hr).1
  have hH : ∀ r ∈ e.hash.records, r.type = 2 := fun r hr => HashTable.records_type hr
  have hlenA := length_le_card h.array.represents hM.array
  have hlenH := length_le_card h.hash.represents_records hM.hash
  rw [List.length_map] at hlenA hlenH
  refine ⟨e.array.records, tree ++ e.hash.records, ?_, ?_, ⟨?_, ?_, ?_⟩, ?_, ?_⟩
  · exact ⟨h.array.arrayRecords, tree, e.hash.records, htree, h.hash.hashRecords, rfl⟩
  · intro r hr
    simp only [List.mem_append] at hr
    obtain hr | hr | hr := hr
    · have hk := (h.array.represents.mem_iff r.key r.value).mpr (List.mem_map_of_mem hr)
      exact ⟨⟨.array, hA r hr⟩, hM.fits _ _ _ hk⟩
    · exact ⟨⟨.tree, hT r hr⟩, hM.fits _ _ _ (hrecs r hr).2⟩
    · have hk := (h.hash.represents_records.mem_iff r.key r.value).mpr (List.mem_map_of_mem hr)
      exact ⟨⟨.hash, hH r hr⟩, hM.fits _ _ _ hk⟩
  · funext k
    have hown := stored_eq hA h.array.represents
    rw [storedMaps, stored_append, stored_append, Engine.recordType, hown,
      stored_of_type hT (by decide), stored_of_type hH (by decide), Option.or_none, Option.or_none]
  · funext k
    have hown := stored_eq hH h.hash.represents_records
    rw [storedMaps, stored_append, stored_append, Engine.recordType, hown,
      stored_of_type hA (by decide), stored_of_type hT (by decide), Option.none_or, Option.none_or]
  · have hown : storedMaps (e.array.records ++ (tree ++ e.hash.records)) .tree = stored 1 tree := by
      funext k
      rw [storedMaps, stored_append, stored_append, Engine.recordType,
        stored_of_type hA (by decide), stored_of_type hH (by decide), Option.none_or, Option.or_none]
    rwa [hown]
  · rw [List.length_append, List.length_append]
    omega
  · have hno : ∀ r ∈ tree ++ e.hash.records, ¬ decide (r.type = 0) = true := by
      intro r hr
      obtain hr | hr := List.mem_append.mp hr
      · simp [hT r hr]
      · simp [hH r hr]
    rw [List.filter_append, List.filter_eq_nil_iff.mpr hno, List.append_nil]
    exact (List.length_filter_le _ _).trans hlenA

end Records

end KvStore
