import Mathlib.Data.UInt
import Mathlib.Tactic.Common

/-! The checksum of `kv_RDB.c`. The table is declared with 256 entries and has 152 initialisers,
so the entries behind them are zero. -/
namespace KvStore

/-- The initialisers of `crc64_table`. -/
def crc64Initializers : List UInt64 := [
  0x0000000000000000, 0x42F0E1EBA9EA3693, 0x85E1C3D753D46D26, 0xC711223CFA3E5BB5,
  0x493366450E42ECDF, 0x0BC387AEA7A8DA4C, 0xCCD2A5925D9681F9, 0x8E224479F47CB76A,
  0x9266CC8A1C85D9BE, 0xD0962D61B56FEF2D, 0x17870F5D4F51B498, 0x5577EEB6E6BB820B,
  0xDB55AACF12C73561, 0x99A54B24BB2D03F2, 0x5EB4691841135847, 0x1C4488F3E8F96ED4,
  0x663D78FF90E185EF, 0x24CD9914390BB37C, 0xE3DCBB28C335E8C9, 0xA12C5AC36ADFDE5A,
  0x2F0E1EBA9EA36930, 0x6DFEFF5137495FA3, 0xAAEFDD6DCD770416, 0xE81F3C86649D3285,
  0xF45BB4758C645C51, 0xB6AB559E258E6AC2, 0x71BA77A2DFB03177, 0x334A9649765A07E4,
  0xBD68D2308226B08E, 0xFF9833DB2BCC861D, 0x388911E7D1F2DDA8, 0x7A79F00C7818EB3B,
  0xCC7AF1FF21C30BDE, 0x8E8A101488293D4D, 0x499B3228721766F8, 0x0B6BD3C3DBFD506B,
  0x854997BA2F81E701, 0xC7B97651866BD192, 0x00A8546D7C558A27, 0x4258B586D5BFBCB4,
  0x5E1C3D753D46D260, 0x1CECDC9E94ACE4F3, 0xDBFDFEA26E92BF46, 0x990D1F49C77889D5,
  0x172F5B3033043EBF, 0x55DFBADB9AEE082C, 0x92CE98E760D05399, 0xD03E790CC93A650A,
  0xAA478900B1228E31, 0xE8B768EB18C8B8A2, 0x2FA64AD7E2F6E317, 0x6D56AB3C4B1CD584,
  0xE374EF45BF6062EE, 0xA1840EAE168A547D, 0x66952C92ECB40FC8, 0x2465CD79455E395B,
  0x3821458AADA7578F, 0x7AD1A461044D611C, 0xBDC0865DFE733AA9, 0xFF3067B657990C3A,
  0x711223CFA3E5BB50, 0x33E2C2240A0F8DC3, 0xF4F3E018F031D676, 0xB60301F359DBE0E5,
  0xDA050215EA6C212F, 0x98F5E3FE438617BC, 0x5FE4C1C2B9B84C09, 0x1D14202910527A9A,
  0x93366450E42ECDF0, 0xD1C685BB4DC4FB63, 0x16D7A787B7FAA0D6, 0x5427466C1E109645,
  0x4863CE9FF6E9F891, 0x0A932F745F03CE02, 0xCD820D48A53D95B7, 0x8F72ECA30CD7A324,
  0x0150A8DAF8AB144E, 0x43A04931514122DD, 0x84B16B0DAB7F7968, 0xC6418AE602954FFB,
  0xBC387AEA7A8DA4C0, 0xFEC89B01D3679253, 0x39D9B93D2959C9E6, 0x7B2958D680B3FF75,
  0xF50B1CAF74CF481F, 0xB7FBFD44DD257E8C, 0x70EADF78271B2539, 0x321A3E938EF113AA,
  0x2E5EB66066087D7E, 0x6CAE578BCFE24BED, 0xABBF75B735DC1058, 0xE94F945C9C3626CB,
  0x676DD025684A91A1, 0x259D31CEC1A0A732, 0xE28C13F23B9EFC87, 0xA07CF2199274CA14,
  0x167FF3EACBAF2AF1, 0x548F120162451C62, 0x939E303D987B47D7, 0xD16ED1D631917144,
  0x5F4C95AFC5EDC62E, 0x1DBC74446C07F0BD, 0xDAAD56789639AB08, 0x985DB7933FD39D9B,
  0x84193F60D72AF3AF, 0xC6E9DE8B7EC0C53C, 0x01F8FCB784FE9E89, 0x43081D5C2D14A81A,
  0xCD2A5925D9681F70, 0x8FDAB8CE708229E3, 0x4A6ACB4778EC7256, 0x089A2AACD10644C5,
  0x14DEA25F39FF2A61, 0x562E43B490151CF2, 0x913F61886A2B4747, 0xD3CF8063C3C171D4,
  0x5DFB059B1B3DC6BE, 0x1F0BE470B2D7F02D, 0xD81AC64C48E9AB98, 0x9AFAC7A7E1039D0B,
  0x86B64F5409FAF3DF, 0xC446AEBFA010C54C, 0x03578C835A2E9EF9, 0x41A76D68F3C4A86A,
  0xCF85291107B81F00, 0x8D75C8FAAE522993, 0x4A64EAC6546C7226, 0x08940B2DFD8644B5,
  0x72EDFB21859EAF8E, 0x301D1ACACEF4991D, 0xF70C38F634CAC2A8, 0xB5FCD91D9D20F43B,
  0x3BDED5646A5C4351, 0x792E348FC3B675C2, 0xBE3F16B339882E77, 0xFCCFF758906218E4,
  0xE08B7FAF789B7630, 0xA27B9E44D17140A3, 0x656ABC782B4F1B16, 0x279A5D9382A52D85,
  0xA9BA19EAB6D99AEF, 0xEB4AF8011F33AC7C, 0x2C5BDADDC50DF7C9, 0x6EA55B366CF7C15A,
  0x72E1DA21871EAF8E, 0x30113BCACEF4991D, 0xF70019F634CAC2A8, 0xB5F0F81D9D20F43B,
  0x3BD2BC64695C4351, 0x79225D8FC0B675C2, 0xBE337FB33A882E77, 0xFCC39E58936218E4]

def crc64Table (i : ℕ) : UInt64 := crc64Initializers.getD i 0

/-- The entry of the table that a byte selects. -/
def crc64Index (crc : UInt64) (b : UInt8) : ℕ := ((crc ^^^ b.toUInt64) &&& 0xFF).toNat

def crc64Step (crc : UInt64) (b : UInt8) : UInt64 := crc64Table (crc64Index crc b) ^^^ (crc >>> 8)

def rdbCalculateCrc64 (data : List UInt8) : UInt64 :=
  data.foldl crc64Step 0xFFFFFFFFFFFFFFFF ^^^ 0xFFFFFFFFFFFFFFFF

/-- With this byte two registers become one: the entries it selects differ in just what the shift
leaves of the difference of the registers. -/
def Merges (crc crc' : UInt64) (b : UInt8) : Prop :=
  crc64Table (crc64Index crc b) ^^^ crc64Table (crc64Index crc' b) = (crc ^^^ crc') >>> 8

instance (crc crc' : UInt64) (b : UInt8) : Decidable (Merges crc crc' b) :=
  inferInstanceAs (Decidable (_ = _))

/-- No byte of the string makes one of two registers. -/
def StayApart : UInt64 → UInt64 → List UInt8 → Prop
  | _, _, [] => True
  | crc, crc', b :: bs => ¬ Merges crc crc' b ∧ StayApart (crc64Step crc b) (crc64Step crc' b) bs

/-- The two bytes select different entries of the table behind `pre`, and no byte of `post` undoes
the difference. -/
def Tells (pre : List UInt8) (b b' : UInt8) (post : List UInt8) : Prop :=
  let crc := pre.foldl crc64Step 0xFFFFFFFFFFFFFFFF
  crc64Table (crc64Index crc b) ≠ crc64Table (crc64Index crc b') ∧
    StayApart (crc64Step crc b) (crc64Step crc b') post

instance : ∀ (bs : List UInt8) (crc crc' : UInt64), Decidable (StayApart crc crc' bs)
  | [], _, _ => isTrue trivial
  | b :: bs, crc, crc' =>
    have := instDecidableStayApart bs (crc64Step crc b) (crc64Step crc' b)
    inferInstanceAs (Decidable (_ ∧ _))

instance (pre : List UInt8) (b b' : UInt8) (post : List UInt8) : Decidable (Tells pre b b' post) :=
  inferInstanceAs (Decidable (_ ∧ _))

theorem xor_eq_xor {a b c d : UInt64} (h : a ^^^ c = b ^^^ d) : a ^^^ b = c ^^^ d := by
  have hcancel : ∀ x y : UInt64, x ^^^ (x ^^^ y) = y := fun x y => by
    rw [← UInt64.xor_assoc, UInt64.xor_self, UInt64.zero_xor]
  calc a ^^^ b = c ^^^ (c ^^^ (a ^^^ b)) := (hcancel _ _).symm
    _ = c ^^^ (b ^^^ (a ^^^ c)) := by ac_rfl
    _ = c ^^^ (b ^^^ (b ^^^ d)) := by rw [h]
    _ = c ^^^ d := by rw [hcancel]

theorem crc64Step_eq_iff {crc crc' : UInt64} {b b' : UInt8} :
    crc64Step crc b = crc64Step crc' b' ↔
      crc64Table (crc64Index crc b) ^^^ crc64Table (crc64Index crc' b') = (crc ^^^ crc') >>> 8 := by
  rw [crc64Step, crc64Step, UInt64.shiftRight_xor]
  exact ⟨xor_eq_xor, xor_eq_xor⟩

/-- Two registers are one behind a string exactly when they are one before it or some byte makes
them so. -/
theorem foldl_crc64Step_ne_iff {bs : List UInt8} {crc crc' : UInt64} :
    bs.foldl crc64Step crc ≠ bs.foldl crc64Step crc' ↔ crc ≠ crc' ∧ StayApart crc crc' bs := by
  induction bs generalizing crc crc' with
  | nil => simp [StayApart]
  | cons b bs ih =>
    have hstep : crc64Step crc b ≠ crc64Step crc' b ↔ ¬ Merges crc crc' b := crc64Step_eq_iff.not
    rw [List.foldl_cons, List.foldl_cons, ih, StayApart, hstep]
    refine ⟨fun h => ⟨?_, h⟩, fun h => h.2⟩
    rintro rfl
    exact hstep.mpr h.1 rfl

/-- A change of one byte shows in the checksum exactly when it selects another entry of the table
and no byte behind it undoes the difference. -/
theorem rdbCalculateCrc64_ne_iff {pre post : List UInt8} {b b' : UInt8} :
    rdbCalculateCrc64 (pre ++ b :: post) ≠ rdbCalculateCrc64 (pre ++ b' :: post) ↔
      Tells pre b b' post := by
  have hstep : ∀ crc, crc64Step crc b ≠ crc64Step crc b' ↔
      crc64Table (crc64Index crc b) ≠ crc64Table (crc64Index crc b') := fun crc =>
    (UInt64.xor_left_inj _).not
  have hend : ∀ x y : UInt64, x ^^^ 0xFFFFFFFFFFFFFFFF ≠ y ^^^ 0xFFFFFFFFFFFFFFFF ↔ x ≠ y :=
    fun x y => (UInt64.xor_left_inj _).not
  rw [rdbCalculateCrc64, rdbCalculateCrc64, hend, List.foldl_append, List.foldl_append,
    List.foldl_cons, List.foldl_cons, foldl_crc64Step_ne_iff, hstep]
  rfl

/-- The entries for 105 and 106 differ, and eight more bytes undo it. -/
example : crc64Table (crc64Index 0xFFFFFFFFFFFFFFFF 105) ≠
      crc64Table (crc64Index 0xFFFFFFFFFFFFFFFF 106) ∧
    rdbCalculateCrc64 [105, 61, 16, 128, 63, 128, 24, 0, 121] =
      rdbCalculateCrc64 [106, 61, 16, 128, 63, 128, 24, 0, 121] := by decide

theorem crc64Index_eq (crc : UInt64) (b : UInt8) :
    crc64Index crc b = (crc.toUInt8 ^^^ b).toNat := by
  have hmask := Nat.and_two_pow_sub_one_eq_mod (crc ^^^ b.toUInt64).toNat 8
  have hb : b.toNat % 2 ^ 8 = b.toNat := Nat.mod_eq_of_lt b.toNat_lt
  calc crc64Index crc b = (crc ^^^ b.toUInt64).toNat % 2 ^ 8 := hmask
    _ = crc.toNat % 2 ^ 8 ^^^ b.toNat % 2 ^ 8 := by
      rw [UInt64.toNat_xor, UInt8.toNat_toUInt64, Nat.xor_mod_two_pow]
    _ = (crc.toUInt8 ^^^ b).toNat := by rw [hb, UInt8.toNat_xor, UInt64.toNat_toUInt8]

/-- Whatever the register holds, some byte selects a given entry. -/
theorem exists_crc64Index (crc : UInt64) (i : UInt8) : ∃ b, crc64Index crc b = i.toNat := by
  refine ⟨crc.toUInt8 ^^^ i, ?_⟩
  rw [crc64Index_eq, ← UInt8.xor_assoc, UInt8.xor_self, UInt8.zero_xor]

/-- At every place of every string two bytes lead to the same checksum: those that select two
entries behind the initialisers. -/
theorem rdbCalculateCrc64_collides (pre post : List UInt8) :
    ∃ b b', b ≠ b' ∧
      rdbCalculateCrc64 (pre ++ b :: post) = rdbCalculateCrc64 (pre ++ b' :: post) := by
  obtain ⟨b, hb⟩ := exists_crc64Index (pre.foldl crc64Step 0xFFFFFFFFFFFFFFFF) 200
  obtain ⟨b', hb'⟩ := exists_crc64Index (pre.foldl crc64Step 0xFFFFFFFFFFFFFFFF) 201
  refine ⟨b, b', ?_, ?_⟩
  · rintro rfl
    rw [hb] at hb'
    exact absurd hb' (by decide)
  · have hstep : crc64Step (pre.foldl crc64Step 0xFFFFFFFFFFFFFFFF) b =
        crc64Step (pre.foldl crc64Step 0xFFFFFFFFFFFFFFFF) b' := by
      have htable : crc64Table (200 : UInt8).toNat = crc64Table (201 : UInt8).toNat := by decide
      rw [crc64Step, crc64Step, hb, hb', htable]
    simp only [rdbCalculateCrc64, List.foldl_append, List.foldl_cons, hstep]

end KvStore
