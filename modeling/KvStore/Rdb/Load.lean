import KvStore.Rdb.Format

/-! What `kvs_rdb_load` makes of a file. The loop leaves at the first thing it does not like and
the function returns 0 all the same, so it is all or nothing exactly on the files whose data is a
sequence of whole records. -/
namespace KvStore
open Endian

/-- A record as it stands in a file. -/
structure RawRecord where
  type : UInt8
  key : List UInt8
  value : List UInt8

namespace RawRecord

def bytes (r : RawRecord) : List UInt8 :=
  r.type :: (toBytes 2 r.key.length ++ (r.key ++ (toBytes 2 r.value.length ++ r.value)))

/-- A type that some engine has, a key length that is accepted, and a value whose length fits
its field. -/
structure WellFormed (r : RawRecord) : Prop where
  type : r.type ≤ 2
  key_pos : 0 < r.key.length
  key_le : r.key.length ≤ 1024
  value_lt : r.value.length < 2 ^ 16

/-- The strings that are passed on, up to the first NUL. -/
def call (r : RawRecord) : RdbRecord := ⟨r.type, .read r.key, .read r.value⟩

end RawRecord

variable {cfg : RdbConfig} {io : LoadIO} {r : RawRecord} {rs : List RawRecord} {n i : ℕ}
  {room : ℕ → Bool × Bool}

theorem freadBytes_append {a : List UInt8} (h : a.length = n) (b : List UInt8) :
    freadBytes n (a ++ b) = (some a, b) := by
  subst h
  simp [freadBytes]

/-- One round reads one record. -/
theorem loadRecord_append (hr : r.WellFormed) (rest : List UInt8) :
    loadRecord (true, true) (r.bytes ++ rest) = (some r.call, rest) := by
  have htype := freadBytes_append (a := [r.type]) (n := 1) rfl
  have hlen : ∀ m, m < 2 ^ 16 → ofBytes (toBytes 2 m) = m :=
    fun m hm => ofBytes_toBytes_of_lt (by omega)
  have hkey : ofBytes (toBytes 2 r.key.length) = r.key.length :=
    hlen _ (by have := hr.key_le; omega)
  have hvalue : ofBytes (toBytes 2 r.value.length) = r.value.length := hlen _ hr.value_lt
  have hkeyLen : ¬ (r.key.length = 0 ∨ 1024 < r.key.length) := by
    have := hr.key_pos
    have := hr.key_le
    omega
  have hvalueLen : ¬ 65535 < r.value.length := by
    have := hr.value_lt
    omega
  have hbytes : r.bytes ++ rest = [r.type] ++ (toBytes 2 r.key.length ++ (r.key ++
      (toBytes 2 r.value.length ++ (r.value ++ rest)))) := by
    simp [RawRecord.bytes, List.append_assoc]
  rw [hbytes, loadRecord, htype]
  simp only [freadBytes_append (length_toBytes 2 _), hkey, hkeyLen, if_false, Bool.not_true,
    Bool.false_eq_true, freadBytes_append rfl, hvalue, hvalueLen]
  rfl

theorem RawRecord.length_bytes (r : RawRecord) :
    r.bytes.length = 5 + r.key.length + r.value.length := by
  simp only [RawRecord.bytes, List.length_cons, List.length_append, length_toBytes]
  omega

/-- The loop reads back the records that stand in the data, and no byte behind it. -/
theorem loadLoop_append (hrs : ∀ r ∈ rs, r.WellFormed)
    (hroom : ∀ j < rs.length, room (i + j) = (true, true)) (hn : rs.length ≤ n)
    (rest : List UInt8) :
    loadLoop room n i (rs.flatMap RawRecord.bytes ++ rest) (rs.flatMap RawRecord.bytes).length =
      (rs.map RawRecord.call, rest) := by
  induction rs generalizing i n with
  | nil =>
    cases n with
    | zero => rfl
    | succ n => rfl
  | cons r rs ih =>
    obtain ⟨n, rfl⟩ : ∃ k, n = k + 1 := ⟨n - 1, by simp only [List.length_cons] at hn; omega⟩
    have hfirst : room i = (true, true) := hroom 0 (by simp)
    have hpos : r.bytes.length + (rs.flatMap RawRecord.bytes).length ≠ 0 := by
      rw [r.length_bytes]
      omega
    have hread := loadRecord_append (hrs r (by simp)) (rs.flatMap RawRecord.bytes ++ rest)
    have hleft : r.bytes.length + (rs.flatMap RawRecord.bytes).length -
        ((r.bytes ++ (rs.flatMap RawRecord.bytes ++ rest)).length -
          (rs.flatMap RawRecord.bytes ++ rest).length) = (rs.flatMap RawRecord.bytes).length := by
      simp only [List.length_append]
      omega
    have hnext := ih (i := i + 1) (n := n) (fun r' hr' => hrs r' (List.mem_cons_of_mem r hr'))
      (by
        intro j hj
        have h := hroom (j + 1) (by simpa using hj)
        rwa [← Nat.add_assoc, Nat.add_right_comm] at h)
      (by simpa using hn)
    rw [List.flatMap_cons, List.append_assoc, List.length_append, loadLoop, if_neg hpos, hfirst]
    simp only [hread, hleft, hnext, List.map_cons]

/-- A record is read only when there was memory for its key and its value. -/
theorem loadRecord_room {p : Bool × Bool} {bs bs' : List UInt8} {x : RdbRecord}
    (h : loadRecord p bs = (some x, bs')) : p = (true, true) := by
  by_contra hp
  obtain ⟨p₁, p₂⟩ := p
  have hno : p₁ = false ∨ p₂ = false := by
    cases p₁ <;> cases p₂ <;> simp_all
  unfold loadRecord at h
  repeat' split at h
  all_goals simp_all

theorem loadLoop_room {bs : List UInt8} {left k : ℕ}
    (hk : k < (loadLoop room n i bs left).1.length) : room (i + k) = (true, true) := by
  induction n generalizing i bs left k with
  | zero => simp [loadLoop] at hk
  | succ n ih =>
    rw [loadLoop] at hk
    split_ifs at hk with hleft
    · simp at hk
    · split at hk
      · simp at hk
      · rename_i x bs' hread
        cases k with
        | zero => exact loadRecord_room hread
        | succ k =>
          simp only [List.length_cons, Nat.add_lt_add_iff_right] at hk
          rw [← Nat.add_assoc, Nat.add_right_comm]
          exact ih hk

/-- The bytes between the header and the end of the data, when the file has them all. -/
def dataRegion (file : Option (List UInt8)) : Option (List UInt8) :=
  file.bind fun f =>
    if f.length < rdbHeaderBytes + (RdbHeader.read f).dataSize then none
    else some ((f.drop rdbHeaderBytes).take (RdbHeader.read f).dataSize)

/-- The data of the file is the sequence of the given records. -/
structure Holds (file : Option (List UInt8)) (rs : List RawRecord) : Prop where
  region : dataRegion file = some (rs.flatMap RawRecord.bytes)
  wellFormed : ∀ r ∈ rs, r.WellFormed

/-- A load that returns 0 has found whole records only, has passed on every one of them and has
read nothing behind them; a load that fails has passed on none. -/
def AllOrNothing (file : Option (List UInt8)) (l : Loaded) : Prop :=
  (l.code = 0 → ∃ rs, Holds file rs ∧ l.calls = rs.map RawRecord.call ∧
    l.consumed = (rs.flatMap RawRecord.bytes).length) ∧
  (l.code ≠ 0 → l.calls = [])

/-- A load of a file that passes the check. -/
theorem kvsRdbLoad_verified {f : List UInt8} (hen : cfg.rdbEnabled = true)
    (hv : rdbVerifyFileIntegrity cfg io.verifyRoom (some f) = 0) :
    kvsRdbLoad cfg io (some f) =
      let bs := f.drop rdbHeaderBytes
      let r := loadLoop io.room bs.length 0 bs (RdbHeader.read f).dataSize
      ⟨0, r.1.filter fun x => x.type ≤ 2, bs.length - r.2.length⟩ := by
  have hlen : ¬ f.length < rdbHeaderBytes := by
    have := (rdbVerifyFileIntegrity_eq_zero.mp hv).1
    omega
  simp [kvsRdbLoad, hen, hv, hlen]

theorem length_le_flatMap (rs : List RawRecord) :
    rs.length ≤ (rs.flatMap RawRecord.bytes).length := by
  induction rs with
  | nil => exact Nat.le_refl 0
  | cons r rs ih =>
    have := r.length_bytes
    simp only [List.flatMap_cons, List.length_cons, List.length_append]
    omega

/-- The whole of a file with its data behind the header. -/
theorem Holds.split {f : List UInt8} (h : Holds (some f) rs) :
    (RdbHeader.read f).dataSize = (rs.flatMap RawRecord.bytes).length ∧
    f.drop rdbHeaderBytes = rs.flatMap RawRecord.bytes ++
      (f.drop rdbHeaderBytes).drop (RdbHeader.read f).dataSize := by
  have hregion := h.region
  simp only [dataRegion, Option.bind_some] at hregion
  split_ifs at hregion with hlen
  have he := Option.some.inj hregion
  refine ⟨?_, ?_⟩
  · rw [← he, List.length_take, List.length_drop]
    omega
  · rw [← he, List.take_append_drop]

/-- Loading the records of a file when there is memory for all of them. -/
theorem Holds.load {f : List UInt8} (h : Holds (some f) rs) (hen : cfg.rdbEnabled = true)
    (hv : rdbVerifyFileIntegrity cfg io.verifyRoom (some f) = 0)
    (hroom : ∀ j < rs.length, io.room j = (true, true)) :
    kvsRdbLoad cfg io (some f) =
      ⟨0, rs.map RawRecord.call, (rs.flatMap RawRecord.bytes).length⟩ := by
  obtain ⟨hsize, hsplit⟩ := h.split
  have hloop := loadLoop_append (i := 0) (n := (f.drop rdbHeaderBytes).length) h.wellFormed
    (by simpa using hroom) (by
      rw [hsplit, List.length_append]
      have := length_le_flatMap rs
      omega) ((f.drop rdbHeaderBytes).drop (RdbHeader.read f).dataSize)
  rw [← hsplit, ← hsize] at hloop
  have hfilter : (rs.map RawRecord.call).filter (fun x => x.type ≤ 2) = rs.map RawRecord.call := by
    rw [List.filter_eq_self]
    intro x hx
    obtain ⟨r, hr, rfl⟩ := List.mem_map.mp hx
    exact decide_eq_true (h.wellFormed r hr).type
  have hconsumed : (f.drop rdbHeaderBytes).length -
      ((f.drop rdbHeaderBytes).drop (RdbHeader.read f).dataSize).length =
        (rs.flatMap RawRecord.bytes).length := by
    have hl := congrArg List.length hsplit
    rw [List.length_append] at hl
    omega
  rw [kvsRdbLoad_verified hen hv]
  simp only [hloop, hfilter, hconsumed]

/-- `kvs_rdb_load` is all or nothing exactly when a file that passes the check holds whole records
only and every record gets memory, and when, with loading switched off, there is nothing to
load. -/
theorem kvsRdbLoad_allOrNothing_iff (cfg : RdbConfig) (io : LoadIO) (file : Option (List UInt8)) :
    AllOrNothing file (kvsRdbLoad cfg io file) ↔
      (cfg.rdbEnabled = false → dataRegion file = some []) ∧
      (cfg.rdbEnabled = true → rdbVerifyFileIntegrity cfg io.verifyRoom file = 0 →
        ∃ rs, Holds file rs ∧ ∀ j < rs.length, io.room j = (true, true)) := by
  cases hen : cfg.rdbEnabled with
  | false =>
    have hload : kvsRdbLoad cfg io file = ⟨0, [], 0⟩ := by simp [kvsRdbLoad, hen]
    rw [hload]
    constructor
    · rintro ⟨hzero, -⟩
      refine ⟨fun _ => ?_, fun h => absurd h (by decide)⟩
      obtain ⟨rs, hholds, hcalls, -⟩ := hzero rfl
      obtain rfl : rs = [] := by simpa using hcalls.symm
      exact hholds.region
    · rintro ⟨hregion, -⟩
      refine ⟨fun _ => ⟨[], ⟨hregion rfl, by simp⟩, rfl, rfl⟩, fun _ => rfl⟩
  | true =>
    simp only [Bool.true_eq_false, false_implies, true_and, true_implies]
    by_cases hv : rdbVerifyFileIntegrity cfg io.verifyRoom file = 0
    · obtain ⟨f, rfl⟩ : ∃ f, file = some f := by
        cases file with
        | none => cases hv
        | some f => exact ⟨f, rfl⟩
      simp only [hv, true_implies]
      constructor
      · rintro ⟨hzero, -⟩
        rw [kvsRdbLoad_verified hen hv] at hzero
        obtain ⟨rs, hholds, hcalls, -⟩ := hzero rfl
        refine ⟨rs, hholds, ?_⟩
        intro j hj
        have hlen := congrArg List.length hcalls
        dsimp only at hlen
        rw [List.length_map] at hlen
        have hle := List.length_filter_le (fun x : RdbRecord => decide (x.type ≤ 2))
          (loadLoop io.room (f.drop rdbHeaderBytes).length 0 (f.drop rdbHeaderBytes)
            (RdbHeader.read f).dataSize).1
        have hlt : j < (loadLoop io.room (f.drop rdbHeaderBytes).length 0 (f.drop rdbHeaderBytes)
            (RdbHeader.read f).dataSize).1.length := by omega
        have h := loadLoop_room hlt
        rwa [Nat.zero_add] at h
      · rintro ⟨rs, hholds, hroom⟩
        rw [hholds.load hen hv hroom]
        exact ⟨fun _ => ⟨rs, hholds, rfl, rfl⟩, fun h => absurd rfl h⟩
    · have hload : kvsRdbLoad cfg io file = ⟨-1, [], 0⟩ := by simp [kvsRdbLoad, hen, hv]
      rw [hload]
      simp only [hv, false_implies, iff_true]
      exact ⟨fun h => absurd h (by decide), fun _ => rfl⟩

/-- A file without checksum whose data is one record of the array and the first byte of
another. -/
def tornRecord : List UInt8 :=
  RdbHeader.bytes ⟨rdbMagic, rdbVersion, 0, 8, 0, 0, 0⟩ ++ [0, 1, 0, 97, 1, 0, 98, 5]

/-- The first record is passed on, and the load returns 0. -/
theorem kvsRdbLoad_torn_record : ¬ AllOrNothing (some tornRecord)
    (kvsRdbLoad ⟨true, false, false, false, .empty⟩ ⟨true, fun _ => (true, true)⟩
      (some tornRecord)) := by
  rintro ⟨hzero, -⟩
  obtain ⟨rs, hholds, hcalls, -⟩ := hzero (by decide)
  have hone : [⟨0, .read [97], .read [98]⟩] = rs.map RawRecord.call := hcalls
  obtain ⟨r, rfl, -⟩ := List.map_eq_singleton_iff.mp hone.symm
  have hregion : some [0, 1, 0, 97, 1, 0, 98, 5] = some (r.bytes ++ []) := hholds.region
  have hread := loadRecord_append (hholds.wellFormed r (by simp)) []
  rw [← Option.some.inj hregion] at hread
  have hrest : (loadRecord (true, true) [0, 1, 0, 97, 1, 0, 98, 5]).2 = [] := by rw [hread]
  exact absurd hrest (by decide)

end KvStore
