import KvStore.Rdb.Model

/-! The layout of a snapshot: header and footer as they are read back, and what the check of a
file comes to. -/
namespace KvStore
open Endian

variable {h : RdbHeader} {f : RdbFooter} {cfg : RdbConfig} {rest data pad : List UInt8} {room : Bool}

@[simp] theorem RdbHeader.length_bytes (h : RdbHeader) : h.bytes.length = rdbHeaderBytes := by
  simp [bytes, rdbHeaderBytes]

theorem RdbHeader.read_bytes (h : RdbHeader) (rest : List UInt8) :
    RdbHeader.read (h.bytes ++ rest) =
      ⟨h.magic % 2 ^ 32, h.version % 2 ^ 32, h.flags % 2 ^ 32, h.dataSize % 2 ^ 32,
        h.recordCount % 2 ^ 32, h.saveTime % 2 ^ 64, h.alignmentPadding % 2 ^ 32⟩ := by
  simp [read, bytes, List.append_assoc, List.drop_append, List.drop_eq_nil_of_le, ofBytes_toBytes]

theorem RdbFooter.length_bytes (hf : f.eofMarker.length = 4) : f.bytes.length = rdbFooterSize := by
  simp [bytes, rdbFooterSize, hf]

theorem RdbFooter.read_bytes (hf : f.eofMarker.length = 4) :
    RdbFooter.read f.bytes = ⟨f.eofMarker, f.crc64 % 2 ^ 64, f.footerSize % 2 ^ 32,
      f.alignmentPadding % 2 ^ 32⟩ := by
  simp [read, bytes, List.drop_append, List.drop_eq_nil_of_le, List.take_of_length_le, hf,
    ofBytes_toBytes]

/-- A check of the source that returns -1. -/
theorem guard_eq_zero {p : Prop} [Decidable p] {x : ℤ} :
    (if p then -1 else x) = 0 ↔ ¬ p ∧ x = 0 := by
  by_cases hp : p
  · simp [hp]
  · simp [hp]

/-- The check passes exactly when magic and version are right and, with the checksum on, the
file ends with a footer whose checksum is that of the data. -/
theorem rdbVerifyFileIntegrity_eq_zero {file : List UInt8} :
    rdbVerifyFileIntegrity cfg room (some file) = 0 ↔
      rdbHeaderBytes ≤ file.length ∧ (RdbHeader.read file).magic = rdbMagic ∧
      (RdbHeader.read file).version = rdbVersion ∧
      (cfg.rdbCrc64 = true →
        rdbHeaderBytes + (RdbHeader.read file).dataSize + rdbFooterSize ≤ file.length ∧
        (RdbFooter.read (file.drop (file.length - rdbFooterSize))).eofMarker = rdbEofMarker ∧
        (RdbFooter.read (file.drop (file.length - rdbFooterSize))).footerSize = rdbFooterSize ∧
        room = true ∧
        (rdbCalculateCrc64 ((file.drop rdbHeaderBytes).take (RdbHeader.read file).dataSize)).toNat =
          (RdbFooter.read (file.drop (file.length - rdbFooterSize))).crc64) := by
  have hdata : rdbHeaderBytes + (RdbHeader.read file).dataSize + rdbFooterSize ≤ file.length →
      ((file.drop rdbHeaderBytes).take (RdbHeader.read file).dataSize).length =
        (RdbHeader.read file).dataSize := by
    intro hlen
    rw [List.length_take, List.length_drop]
    omega
  have hcrc : ∀ x : ℤ, (if cfg.rdbCrc64 = true then x else 0) = 0 ↔
      (cfg.rdbCrc64 = true → x = 0) := by
    intro x
    by_cases h : cfg.rdbCrc64 = true
    · simp [h]
    · simp [h]
  simp only [rdbVerifyFileIntegrity, guard_eq_zero, hcrc, not_lt, ne_eq, not_not,
    Bool.not_eq_true', Bool.not_eq_false, and_true]
  constructor
  · rintro ⟨hlen, hm, hv, h⟩
    refine ⟨hlen, hm, hv, ?_⟩
    intro hc
    obtain ⟨hsize, heof, hfs, hroom, -, hsum⟩ := h hc
    exact ⟨hsize, heof, hfs, hroom, hsum⟩
  · rintro ⟨hlen, hm, hv, h⟩
    refine ⟨hlen, hm, hv, ?_⟩
    intro hc
    obtain ⟨hsize, heof, hfs, hroom, hsum⟩ := h hc
    exact ⟨hsize, heof, hfs, hroom, hdata hsize, hsum⟩

/-- With the checksum off nothing but the header is looked at. -/
theorem verified_of_header {h : RdbHeader} (hm : h.magic = rdbMagic) (hver : h.version = rdbVersion)
    (hcrc : cfg.rdbCrc64 = false) (rest : List UInt8) :
    rdbVerifyFileIntegrity cfg room (some (h.bytes ++ rest)) = 0 := by
  rw [rdbVerifyFileIntegrity_eq_zero, RdbHeader.read_bytes, hm, hver]
  refine ⟨?_, rfl, rfl, fun hon => ?_⟩
  · rw [List.length_append, RdbHeader.length_bytes]
    exact Nat.le_add_right _ _
  · rw [hcrc] at hon
    cases hon

/-- A file of header, data, padding and footer. -/
def sealed (h : RdbHeader) (data pad : List UInt8) (crc : UInt64) : List UInt8 :=
  h.bytes ++ (data ++ (pad ++ RdbFooter.bytes ⟨rdbEofMarker, crc.toNat, rdbFooterSize, 0⟩))

/-- Such a file passes the check exactly when its footer has the checksum of its data, or nobody
looks. -/
theorem rdbVerifyFileIntegrity_sealed_iff (hm : h.magic = rdbMagic) (hv : h.version = rdbVersion)
    (hn : h.dataSize = data.length) (hlt : data.length < 2 ^ 32) {crc : UInt64} :
    rdbVerifyFileIntegrity cfg true (some (sealed h data pad crc)) = 0 ↔
      (cfg.rdbCrc64 = true → rdbCalculateCrc64 data = crc) := by
  have hread : RdbHeader.read (sealed h data pad crc) = _ := RdbHeader.read_bytes h _
  have hsize : (RdbHeader.read (sealed h data pad crc)).dataSize = data.length := by
    rw [hread]
    dsimp only
    rw [hn, Nat.mod_eq_of_lt hlt]
  have hmagic : (RdbHeader.read (sealed h data pad crc)).magic = rdbMagic := by
    rw [hread, hm]
    rfl
  have hversion : (RdbHeader.read (sealed h data pad crc)).version = rdbVersion := by
    rw [hread, hv]
    rfl
  have hfoot : (RdbFooter.bytes ⟨rdbEofMarker, crc.toNat, rdbFooterSize, 0⟩).length =
      rdbFooterSize := RdbFooter.length_bytes rfl
  have hlen : (sealed h data pad crc).length =
      rdbHeaderBytes + (data.length + (pad.length + rdbFooterSize)) := by
    simp only [sealed, List.length_append, RdbHeader.length_bytes, hfoot]
  have hend : (sealed h data pad crc).drop ((sealed h data pad crc).length - rdbFooterSize) =
      RdbFooter.bytes ⟨rdbEofMarker, crc.toNat, rdbFooterSize, 0⟩ := by
    have hsplit : sealed h data pad crc = (h.bytes ++ (data ++ pad)) ++
        RdbFooter.bytes ⟨rdbEofMarker, crc.toNat, rdbFooterSize, 0⟩ := by
      simp only [sealed, List.append_assoc]
    rw [hlen, hsplit]
    apply List.drop_left'
    simp only [List.length_append, RdbHeader.length_bytes]
    omega
  have hdata : ((sealed h data pad crc).drop rdbHeaderBytes).take data.length = data := by
    rw [sealed, List.drop_left' (RdbHeader.length_bytes h), List.take_left']
    rfl
  have hcrc : (rdbCalculateCrc64 data).toNat = crc.toNat % 2 ^ 64 ↔ rdbCalculateCrc64 data = crc := by
    rw [Nat.mod_eq_of_lt crc.toNat_lt, UInt64.toNat_inj]
  rw [rdbVerifyFileIntegrity_eq_zero, hsize, hend, hdata, RdbFooter.read_bytes rfl, hmagic, hversion]
  dsimp only
  rw [hcrc]
  refine ⟨fun hpass hon => (hpass.2.2.2 hon).2.2.2.2, fun hsum => ⟨by omega, rfl, rfl, fun hon => ?_⟩⟩
  exact ⟨by omega, rfl, rfl, rfl, hsum hon⟩

theorem rdbVerifyFileIntegrity_sealed (hm : h.magic = rdbMagic) (hv : h.version = rdbVersion)
    (hn : h.dataSize = data.length) (hlt : data.length < 2 ^ 32) {crc : UInt64}
    (hc : rdbCalculateCrc64 data = crc) :
    rdbVerifyFileIntegrity cfg true (some (sealed h data pad crc)) = 0 :=
  (rdbVerifyFileIntegrity_sealed_iff hm hv hn hlt).mpr fun _ => hc

end KvStore
