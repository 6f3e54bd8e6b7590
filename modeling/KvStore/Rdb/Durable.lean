import KvStore.Rdb.Records

/-! A save without checksum and the load of its file. The loop of `kvs_rdb_load` reads a first
part of the records, which ends before a record with an empty key, and before the size field of
the header is passed by more than a record. -/
namespace KvStore
open KeyValue Endian

section Loop

variable {rs : List RawRecord} {n i left : ℕ} {room : ℕ → Bool × Bool}

/-- The length of the longest record that the loop reads. -/
def longestRecord : ℕ := 5 + 1024 + 65535

theorem RawRecord.WellFormed.length_le {r : RawRecord} (hr : r.WellFormed) :
    r.bytes.length ≤ longestRecord := by
  have hk := hr.key_le
  have hv := hr.value_lt
  rw [r.length_bytes, longestRecord]
  omega

/-- A record with an empty key ends the loop. -/
theorem loadRecord_empty {r : RawRecord} (hk : r.key = []) (rest : List UInt8) :
    (loadRecord (true, true) (r.bytes ++ rest)).1 = none := by
  have htype := freadBytes_append (a := [r.type]) (n := 1) rfl
  have hbytes : r.bytes ++ rest = [r.type] ++ (toBytes 2 0 ++ (toBytes 2 r.value.length ++
      (r.value ++ rest))) := by
    simp [RawRecord.bytes, hk, List.append_assoc]
  have hzero : ofBytes (toBytes 2 0) = 0 := ofBytes_toBytes_of_lt (by decide)
  rw [hbytes, loadRecord, htype]
  simp only [freadBytes_append (length_toBytes 2 _), hzero, true_or, if_true]

/-- The loop reads a first part of the records. -/
theorem loadLoop_prefix (i left : ℕ) (hrs : ∀ r ∈ rs, r.WellFormed ∨ r.key = [])
    (hroom : ∀ j, room j = (true, true)) : ∃ l l', rs = l ++ l' ∧
    (loadLoop room n i (rs.flatMap RawRecord.bytes) left).1 = l.map RawRecord.call ∧
    (∀ r ∈ l, r.WellFormed) ∧
    (l = [] ∨ (l.flatMap RawRecord.bytes).length < left + longestRecord) := by
  induction n generalizing i left rs with
  | zero => exact ⟨[], rs, rfl, rfl, by simp, .inl rfl⟩
  | succ n ih =>
    rw [loadLoop]
    by_cases hleft : left = 0
    · rw [if_pos hleft]
      exact ⟨[], rs, rfl, rfl, by simp, .inl rfl⟩
    rw [if_neg hleft, hroom]
    cases rs with
    | nil => exact ⟨[], [], rfl, rfl, by simp, .inl rfl⟩
    | cons r rs =>
      rw [List.flatMap_cons]
      obtain hr | hk := hrs r List.mem_cons_self
      · rw [loadRecord_append hr]
        have hread : (r.bytes ++ rs.flatMap RawRecord.bytes).length -
            (rs.flatMap RawRecord.bytes).length = r.bytes.length := by
          rw [List.length_append]
          omega
        dsimp only
        rw [hread]
        have hrest : ∀ x ∈ rs, x.WellFormed ∨ x.key = [] := fun x hx =>
          hrs x (List.mem_cons_of_mem r hx)
        obtain ⟨l, l', rfl, hl, hwf, hlen⟩ := ih (i + 1) (left - r.bytes.length) hrest
        refine ⟨r :: l, l', rfl, by rw [hl, List.map_cons], ?_, .inr ?_⟩
        · intro x hx
          obtain rfl | hx := List.mem_cons.mp hx
          · exact hr
          · exact hwf x hx
        · have hle := hr.length_le
          rw [List.flatMap_cons, List.length_append]
          by_cases hover : left ≤ r.bytes.length
          · -- nothing is left, so the loop ends here
            have hl' : l.map RawRecord.call = [] := by
              rw [← hl, Nat.sub_eq_zero_of_le hover]
              cases n with
              | zero => rfl
              | succ n => rfl
            rw [List.map_eq_nil_iff.mp hl', List.flatMap_nil, List.length_nil]
            omega
          · obtain rfl | hlen := hlen
            · rw [List.flatMap_nil, List.length_nil]
              omega
            · omega
      · have hnone := loadRecord_empty hk (rs.flatMap RawRecord.bytes)
        refine ⟨[], r :: rs, rfl, ?_, by simp, .inl rfl⟩
        cases hread : loadRecord (true, true) (r.bytes ++ rs.flatMap RawRecord.bytes) with
        | mk x bs =>
          rw [hread] at hnone
          dsimp only at hnone
          rw [hnone]
          rfl

end Loop

/-- The record as it stands in the file. -/
def RdbRecord.raw (r : RdbRecord) : RawRecord := ⟨r.type, r.key.bytes, r.value.bytes⟩

@[simp] theorem RdbRecord.call_raw (r : RdbRecord) : r.raw.call = r := by
  simp only [raw, RawRecord.call, CString.read_bytes]

/-- Lengths that fit their fields are written as they are. -/
theorem RdbRecord.bytes_raw {r : RdbRecord} (hkey : r.key.length < 2 ^ 16)
    (hvalue : r.value.length < 2 ^ 16) : r.bytes = r.raw.bytes := by
  have hk : r.key.length % 2 ^ 16 = r.key.bytes.length := Nat.mod_eq_of_lt hkey
  have hv : r.value.length % 2 ^ 16 = r.value.bytes.length := Nat.mod_eq_of_lt hvalue
  rw [bytes, hk, hv, List.take_length, List.take_length]
  rfl

/-- An entry that a request can make: a type that is loaded, and lengths that a packet has room
for. -/
structure RdbRecord.Fits (r : RdbRecord) : Prop where
  type : r.type = 0 ∨ r.type = 2 ∧ HashTable.InRange r.key
  key_le : r.key.length ≤ 1024
  value_le : r.value.length ≤ 1024

namespace RdbRecord.Fits

variable {r : RdbRecord}

theorem bytes_eq (hr : r.Fits) : r.bytes = r.raw.bytes :=
  bytes_raw (lt_of_le_of_lt hr.key_le (by decide)) (lt_of_le_of_lt hr.value_le (by decide))

theorem type_le (hr : r.Fits) : r.type ≤ 2 := by
  obtain h | ⟨h, -⟩ := hr.type
  · rw [h]
    decide
  · rw [h]
    decide

theorem wellFormed (hr : r.Fits) (hk : r.key ≠ .empty) : r.raw.WellFormed := by
  refine ⟨hr.type_le, ?_, hr.key_le, lt_of_le_of_lt hr.value_le (by decide)⟩
  apply List.length_pos_iff.mpr
  intro h
  exact hk (CString.ext h)

/-- A record is well formed unless its key is empty. -/
theorem wellFormed_or (hr : r.Fits) : r.raw.WellFormed ∨ r.raw.key = [] := by
  by_cases hk : r.key = .empty
  · exact .inr (by rw [raw, hk]; rfl)
  · exact .inl (hr.wellFormed hk)

end RdbRecord.Fits

theorem flatMap_raw {rs : List RdbRecord} (hrs : ∀ r ∈ rs, r.Fits) :
    rs.flatMap RdbRecord.bytes = (rs.map RdbRecord.raw).flatMap RawRecord.bytes := by
  rw [List.flatMap_map]
  apply List.flatMap_congr
  intro r hr
  exact (hrs r hr).bytes_eq

section File

variable {cfg : RdbConfig} {io : SaveIO} {lio : LoadIO} {array others rs : List RdbRecord}

/-- The file that a save without checksum leaves. -/
def plainFile (cfg : RdbConfig) (io : SaveIO) (array others : List RdbRecord) : List UInt8 :=
  (savedHeader cfg io array others).bytes ++ (array ++ others).flatMap RdbRecord.bytes

theorem plainFile_dataSize : (RdbHeader.read (plainFile cfg io array others)).dataSize =
    ((array ++ others).flatMap RdbRecord.bytes).length % 2 ^ 32 := by
  rw [plainFile, RdbHeader.read_bytes]
  exact Nat.mod_mod _ _

theorem plainFile_data : (plainFile cfg io array others).drop rdbHeaderBytes =
    (array ++ others).flatMap RdbRecord.bytes :=
  List.drop_left' (RdbHeader.length_bytes _)

theorem plainFile_verified (hcrc : cfg.rdbCrc64 = false) {room : Bool} :
    rdbVerifyFileIntegrity cfg room (some (plainFile cfg io array others)) = 0 :=
  verified_of_header rfl rfl hcrc _

theorem map_call_raw (rs : List RdbRecord) : (rs.map RdbRecord.raw).map RawRecord.call = rs := by
  rw [List.map_map]
  apply List.map_id''
  exact RdbRecord.call_raw

variable (io) in
/-- The load passes on a first part of the records. -/
theorem plainFile_load (hen : cfg.rdbEnabled = true) (hcrc : cfg.rdbCrc64 = false)
    (hroom : ∀ j, lio.room j = (true, true)) (hfits : ∀ r ∈ array ++ others, r.Fits) :
    (kvsRdbLoad cfg lio (some (plainFile cfg io array others))).code = 0 ∧
    ∃ l l', array ++ others = l ++ l' ∧
      (kvsRdbLoad cfg lio (some (plainFile cfg io array others))).calls = l ∧
      (∀ r ∈ l, r.key ≠ .empty) ∧
      (l = [] ∨ (l.flatMap RdbRecord.bytes).length <
        ((array ++ others).flatMap RdbRecord.bytes).length % 2 ^ 32 + longestRecord) := by
  rw [kvsRdbLoad_verified hen (plainFile_verified hcrc)]
  refine ⟨rfl, ?_⟩
  have hraw : ∀ r ∈ (array ++ others).map RdbRecord.raw, r.WellFormed ∨ r.key = [] := by
    intro r hr
    obtain ⟨x, hx, rfl⟩ := List.mem_map.mp hr
    exact (hfits x hx).wellFormed_or
  obtain ⟨L, L', hsplit, hloop, hwf, hlen⟩ := loadLoop_prefix
    (n := ((array ++ others).flatMap RdbRecord.bytes).length) 0
    (((array ++ others).flatMap RdbRecord.bytes).length % 2 ^ 32) hraw hroom
  obtain ⟨l, l', hrs, rfl, -⟩ := List.map_eq_append_iff.mp hsplit
  rw [← flatMap_raw hfits, map_call_raw] at hloop
  have hl : ∀ r ∈ l, r.Fits := by
    intro r hr
    exact hfits r (hrs ▸ List.mem_append_left l' hr)
  refine ⟨l, l', hrs, ?_, ?_, ?_⟩
  · dsimp only
    rw [plainFile_data, plainFile_dataSize, hloop, List.filter_eq_self]
    intro r hr
    exact decide_eq_true (hl r hr).type_le
  · intro r hr hk
    have hpos := (hwf r.raw (List.mem_map_of_mem hr)).key_pos
    rw [RdbRecord.raw, hk] at hpos
    exact absurd hpos (lt_irrefl 0)
  · obtain hnil | hlt := hlen
    · exact .inl (List.map_eq_nil_iff.mp hnil)
    · exact .inr (by rwa [flatMap_raw hl])

variable (io) in
/-- All of them, when no key is empty and their size fits the field of the header. -/
theorem plainFile_load_all (hen : cfg.rdbEnabled = true) (hcrc : cfg.rdbCrc64 = false)
    (hroom : ∀ j, lio.room j = (true, true)) (hfits : ∀ r ∈ array ++ others, r.Fits)
    (hkeys : ∀ r ∈ array ++ others, r.key ≠ .empty)
    (hsize : ((array ++ others).flatMap RdbRecord.bytes).length < 2 ^ 32) :
    (kvsRdbLoad cfg lio (some (plainFile cfg io array others))).calls = array ++ others := by
  have hholds : Holds (some (plainFile cfg io array others))
      ((array ++ others).map RdbRecord.raw) := by
    constructor
    · rw [dataRegion, Option.bind_some, plainFile_dataSize, Nat.mod_eq_of_lt hsize, if_neg,
        plainFile_data, List.take_length, flatMap_raw hfits]
      rw [plainFile, List.length_append, RdbHeader.length_bytes]
      exact lt_irrefl _
    · intro r hr
      obtain ⟨x, hx, rfl⟩ := List.mem_map.mp hr
      exact (hfits x hx).wellFormed (hkeys x hx)
  rw [hholds.load hen (plainFile_verified hcrc) fun j _ => hroom j]
  exact map_call_raw _

end File

section Durable

variable {cfg : RdbConfig} {io : SaveIO} {lio : LoadIO} {e e' fresh : Engines} {fs : Files}
  {filename : CString} {ma mh ma' mh' : CString → Option CString} {w : ℕ → EngineAlloc} {n : ℕ}

/-- Every key has the same value in the array, and in the hash table every key that belongs to a
slot. -/
structure SameValues (e e' : Engines) : Prop where
  array : ∀ k, ∃ v, (kvsArrayGet e.array (some k)).map Prod.fst = some v ∧
    (kvsArrayGet e'.array (some k)).map Prod.fst = some v
  hash : ∀ k, HashTable.InRange k → ∃ v, kvsHashGet e.hash (some k) = some v ∧
    kvsHashGet e'.hash (some k) = some v

/-- The save returns 0, the load of its file into fresh engines returns 0, and they answer every
`get` as before. -/
def Durable (cfg : RdbConfig) (io : SaveIO) (lio : LoadIO) (n : ℕ) (w : ℕ → EngineAlloc)
    (fresh e : Engines) (fs : Files) (filename : CString) : Prop :=
  ∃ fs', kvsRdbSave cfg io e fs filename = some (0, fs') ∧
    (kvsRdbLoad cfg lio (fs' filename)).code = 0 ∧
    ∃ e', passRecords n w 0 fresh (kvsRdbLoad cfg lio (fs' filename)).calls = some e' ∧
      SameValues e e'

/-- Saving is switched on, no entry has an empty key, and the entries take less than 2^32 bytes;
or it is switched off, and there is no entry. -/
def Engines.Restorable (e : Engines) (cfg : RdbConfig) : Prop :=
  (cfg.rdbEnabled = true ∧ (∀ r ∈ e.records, r.key ≠ .empty) ∧
    (e.records.map fun r => 5 + r.key.length + r.value.length).sum < 2 ^ 32) ∨
  (cfg.rdbEnabled = false ∧ e.records = [])

theorem length_records_bytes {rs : List RdbRecord} (hrs : ∀ r ∈ rs, r.Fits) :
    (rs.flatMap RdbRecord.bytes).length =
      (rs.map fun r => 5 + r.key.length + r.value.length).sum := by
  rw [length_flatMap_bytes, recordBytes]
  congr 1
  apply List.map_congr_left
  intro r hr
  have hkey := (hrs r hr).key_le
  have hvalue := (hrs r hr).value_le
  rw [Nat.mod_eq_of_lt (by omega), Nat.mod_eq_of_lt (by omega)]

/-- Engines that hold maps answer alike when the maps agree. -/
theorem Engines.Keep.sameValues_iff (h : e.Keep ma mh) (h' : e'.Keep ma' mh') :
    SameValues e e' ↔ ma = ma' ∧ ∀ k, HashTable.InRange k → mh k = mh' k := by
  have helim : ∀ a b : Option CString, a.elim CharPtr.null .str = b.elim .null .str ↔ a = b := by
    intro a b
    cases a <;> cases b <;> simp
  constructor
  · rintro ⟨harray, hhash⟩
    constructor
    · funext k
      obtain ⟨v, hv, hv'⟩ := harray k
      rw [h.array.get, Option.map_some, Option.some.injEq] at hv
      rw [h'.array.get, Option.map_some, Option.some.injEq, ← hv] at hv'
      exact ((helim _ _).mp hv').symm
    · intro k hk
      obtain ⟨v, hv, hv'⟩ := hhash k hk
      rw [h.hash.get hk, Option.some.injEq] at hv
      rw [h'.hash.get hk, Option.some.injEq, ← hv] at hv'
      exact ((helim _ _).mp hv').symm
  · rintro ⟨rfl, hmh⟩
    constructor
    · intro k
      exact ⟨_, by rw [h.array.get]; rfl, by rw [h'.array.get]; rfl⟩
    · intro k hk
      exact ⟨_, h.hash.get hk, by rw [h'.hash.get hk, hmh k hk]⟩

/-- What is loaded into fresh engines, and when that is everything. -/
theorem Engines.Keep.pass_prefix (h : e.Keep ma mh)
    (hfresh : fresh.Keep (fun _ => none) fun _ => none) (hempty : fresh.array.total = 0)
    (hw : Roomy w) (hfits : ∀ r ∈ e.records, r.Fits) {l l' : List RdbRecord}
    (hl : e.records = l ++ l') : ∃ e', passRecords n w 0 fresh l = some e' ∧
      (SameValues e e' ↔ l' = []) := by
  have hroom : fresh.array.total + (l.filter (·.type = 0)).length ≤ kvsArraySize := by
    have harray : e.records.filter (·.type = 0) = e.array.records := by
      rw [Engines.records, List.filter_append, List.filter_eq_self.mpr, List.filter_eq_nil_iff.mpr,
        List.append_nil]
      · intro r hr
        simp [HashTable.records_type hr]
      · intro r hr
        simp [KvsArray.records_type hr]
    have hle : (l.filter (·.type = 0)).length ≤ (e.records.filter (·.type = 0)).length := by
      rw [hl, List.filter_append, List.length_append]
      exact Nat.le_add_right _ _
    rw [harray, KvsArray.records, List.length_map, List.length_range'] at hle
    have := h.array.bound
    omega
  have htypes : ∀ r ∈ l, r.type = 0 ∨ r.type = 2 ∧ HashTable.InRange r.key := fun r hr =>
    (hfits r (hl ▸ List.mem_append_left l' hr)).type
  obtain ⟨e', hpass, h'⟩ := hfresh.pass (n := n) (i := 0) hw htypes hroom
  refine ⟨e', hpass, ?_⟩
  rw [h.sameValues_iff h', ← h.stored_array, ← h.stored_hash, hl]
  simp only [Option.none_or]
  constructor
  · rintro ⟨harray, hhash⟩
    apply eq_nil_of_stored (hl ▸ h.nodup)
    intro r hr
    obtain ht | ⟨ht, hk⟩ := (hfits r (hl ▸ List.mem_append_right l hr)).type
    · rw [ht]
      exact (congrFun harray r.key).symm
    · rw [ht]
      exact (hhash r.key hk).symm
  · rintro rfl
    rw [List.append_nil]
    exact ⟨rfl, fun _ _ => rfl⟩

/-- Engines with entries from requests come back from a file without checksum exactly when they
are restorable. -/
theorem Engines.Keep.durable_iff (h : e.Keep ma mh)
    (hfresh : fresh.Keep (fun _ => none) fun _ => none) (hempty : fresh.array.total = 0)
    (hfits : ∀ r ∈ e.records, r.Fits) (hcrc : cfg.rdbCrc64 = false) (hopen : io.opens = true)
    (hroom : ∀ j, lio.room j = (true, true)) (hw : Roomy w) :
    Durable cfg io lio n w fresh e fs filename ↔ e.Restorable cfg := by
  cases hen : cfg.rdbEnabled with
  | false =>
    obtain ⟨e', hpass, hsame⟩ := h.pass_prefix (n := n) hfresh hempty hw hfits
      (List.nil_append e.records).symm
    simp [Durable, Engines.Restorable, kvsRdbSave, kvsRdbLoad, hen, hpass, hsame]
  | true =>
    have hsave : kvsRdbSave cfg io e fs filename = some (0, Function.update
        (backedUp cfg io fs filename) filename
          (some (plainFile cfg io e.array.records e.hash.records))) := by
      rw [h.saves.kvsRdbSave hen hopen, saveRecords_plain hcrc]
      rfl
    have hfile := plainFile_load io hen hcrc hroom hfits
    obtain ⟨hcode, l, l', hsplit, hcalls, hkeys, hlen⟩ := hfile
    obtain ⟨e', hpass, hsame⟩ := h.pass_prefix (n := n) hfresh hempty hw hfits hsplit
    have hdurable : Durable cfg io lio n w fresh e fs filename ↔ l' = [] := by
      simp only [Durable, hsave, Option.some.injEq, Prod.mk.injEq, true_and, exists_eq_left',
        Function.update_self, hcode, hcalls, hpass, hsame]
    rw [hdurable]
    simp only [Engines.Restorable, hen, true_and, Bool.true_eq_false, false_and, or_false,
      ← length_records_bytes hfits]
    constructor
    · rintro rfl
      rw [List.append_nil] at hsplit
      have hall : e.records = l := hsplit
      rw [hall]
      refine ⟨hkeys, ?_⟩
      obtain rfl | hlen := hlen
      · exact Nat.two_pow_pos 32
      · rw [hsplit, longestRecord] at hlen
        omega
    · rintro ⟨hne, hsize⟩
      have hload := plainFile_load_all io hen hcrc hroom hfits hne hsize
      rw [hcalls, hsplit] at hload
      exact List.self_eq_append_right.mp hload

end Durable

end KvStore
