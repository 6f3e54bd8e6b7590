import KvStore.Rdb.Durable

/-! The format of the records. What a save writes record after record is read back by the loop of
the load, whatever stands behind it. -/
namespace KvStore

/-- A record that the loop accepts: a type that an engine has, a key that is not empty or too long,
and a value whose length fits its field. -/
structure RdbRecord.Loadable (r : RdbRecord) : Prop where
  type : r.type ≤ 2
  key_pos : 1 ≤ r.key.length
  key_le : r.key.length ≤ 1024
  value_le : r.value.length ≤ 65535

namespace RdbRecord.Loadable

variable {r : RdbRecord}

theorem bytes_eq (h : r.Loadable) : r.bytes = r.raw.bytes :=
  bytes_raw (lt_of_le_of_lt h.key_le (by decide)) (Nat.lt_succ_of_le h.value_le)

theorem wellFormed (h : r.Loadable) : r.raw.WellFormed :=
  ⟨h.type, h.key_pos, h.key_le, Nat.lt_succ_of_le h.value_le⟩

end RdbRecord.Loadable

/-- The file with these records behind the header and then other bytes. -/
def recordFile (h : RdbHeader) (rs : List RdbRecord) (rest : List UInt8) : List UInt8 :=
  h.bytes ++ (rs.flatMap RdbRecord.bytes ++ rest)

section RecordFile

variable {h : RdbHeader} {rs : List RdbRecord} {rest : List UInt8}

theorem recordFile_data : (recordFile h rs rest).drop rdbHeaderBytes =
    rs.flatMap RdbRecord.bytes ++ rest :=
  List.drop_left' h.length_bytes

theorem recordFile_dataSize (hlt : h.dataSize < 2 ^ 32) :
    (RdbHeader.read (recordFile h rs rest)).dataSize = h.dataSize := by
  rw [recordFile, RdbHeader.read_bytes]
  exact Nat.mod_eq_of_lt hlt

theorem flatMap_loadable (hrs : ∀ r ∈ rs, r.Loadable) :
    rs.flatMap RdbRecord.bytes = (rs.map RdbRecord.raw).flatMap RawRecord.bytes := by
  rw [List.flatMap_map]
  exact List.flatMap_congr fun r hr => (hrs r hr).bytes_eq

theorem recordFile_holds (hrs : ∀ r ∈ rs, r.Loadable)
    (hsize : h.dataSize = (rs.flatMap RdbRecord.bytes).length) (hlt : h.dataSize < 2 ^ 32) :
    Holds (some (recordFile h rs rest)) (rs.map RdbRecord.raw) := by
  constructor
  · rw [dataRegion, Option.bind_some, recordFile_dataSize hlt, if_neg, recordFile_data, hsize,
      List.take_left, flatMap_loadable hrs]
    rw [recordFile, List.length_append, List.length_append, h.length_bytes, hsize]
    omega
  · intro r hr
    obtain ⟨x, hx, rfl⟩ := List.mem_map.mp hr
    exact (hrs x hx).wellFormed

theorem recordFile_loop (hrs : ∀ r ∈ rs, r.Loadable)
    (hsize : h.dataSize = (rs.flatMap RdbRecord.bytes).length) (hlt : h.dataSize < 2 ^ 32)
    {room : ℕ → Bool × Bool} (hroom : ∀ j, room j = (true, true)) :
    loadLoop room ((recordFile h rs rest).drop rdbHeaderBytes).length 0
        ((recordFile h rs rest).drop rdbHeaderBytes)
        (RdbHeader.read (recordFile h rs rest)).dataSize = (rs, rest) := by
  have hbytes := flatMap_loadable hrs
  have hraw : ∀ r ∈ rs.map RdbRecord.raw, r.WellFormed := by
    intro r hr
    obtain ⟨x, hx, rfl⟩ := List.mem_map.mp hr
    exact (hrs x hx).wellFormed
  have hcount : (rs.map RdbRecord.raw).length ≤
      ((rs.map RdbRecord.raw).flatMap RawRecord.bytes ++ rest).length := by
    rw [List.length_append]
    exact (length_le_flatMap _).trans (Nat.le_add_right _ _)
  rw [recordFile_dataSize hlt, recordFile_data, hsize, hbytes,
    loadLoop_append hraw (fun j _ => hroom _) hcount, map_call_raw]

/-- The loop of the load reads exactly the records back and stops at the end of the data, and a load
that accepts the file passes exactly these records on, in their order. -/
theorem recordFile_roundTrip (hrs : ∀ r ∈ rs, r.Loadable)
    (hsize : h.dataSize = (rs.flatMap RdbRecord.bytes).length) (hlt : h.dataSize < 2 ^ 32)
    (rest : List UInt8) {io : LoadIO} (hroom : ∀ j, io.room j = (true, true)) :
    loadLoop io.room ((recordFile h rs rest).drop rdbHeaderBytes).length 0
        ((recordFile h rs rest).drop rdbHeaderBytes)
        (RdbHeader.read (recordFile h rs rest)).dataSize = (rs, rest) ∧
      (recordFile h rs rest).length - rest.length = rdbHeaderBytes + h.dataSize ∧
      ∀ cfg : RdbConfig, cfg.rdbEnabled = true →
        rdbVerifyFileIntegrity cfg io.verifyRoom (some (recordFile h rs rest)) = 0 →
        kvsRdbLoad cfg io (some (recordFile h rs rest)) = ⟨0, rs, h.dataSize⟩ := by
  refine ⟨recordFile_loop hrs hsize hlt hroom, ?_, fun cfg hen hv => ?_⟩
  · rw [recordFile, List.length_append, List.length_append, h.length_bytes, hsize]
    omega
  · rw [(recordFile_holds hrs hsize hlt).load hen hv fun j _ => hroom j, map_call_raw,
      ← flatMap_loadable hrs, ← hsize]

end RecordFile

/-- A record of the array and one of the tree, before the marker of a footer. -/
def twoRecords : List UInt8 :=
  recordFile ⟨rdbMagic, rdbVersion, 0, 14, 1, 0, 0⟩
    [⟨0, .read [97], .read [98]⟩, ⟨1, .read [99], .read [100]⟩] rdbEofMarker

theorem recordFile_roundTrip_two :
    kvsRdbLoad ⟨true, false, false, false, .empty⟩ ⟨true, fun _ => (true, true)⟩ (some twoRecords) =
      ⟨0, [⟨0, .read [97], .read [98]⟩, ⟨1, .read [99], .read [100]⟩], 14⟩ := by
  have hrs : ∀ r ∈ ([⟨0, .read [97], .read [98]⟩, ⟨1, .read [99], .read [100]⟩] : List RdbRecord),
      r.Loadable := by
    intro r hr
    obtain rfl | hr := List.mem_cons.mp hr
    · exact ⟨by decide, by decide, by decide, by decide⟩
    · obtain rfl := List.mem_singleton.mp hr
      exact ⟨by decide, by decide, by decide, by decide⟩
  exact (recordFile_roundTrip hrs rfl (by decide) rdbEofMarker fun _ => rfl).2.2
    ⟨true, false, false, false, .empty⟩ rfl (by decide)

end KvStore
