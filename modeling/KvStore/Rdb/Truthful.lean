import KvStore.Lib.Fuel
import KvStore.Rdb.Reload

/-! What the header of a snapshot says of the data behind it. Its size field is set from where the
stream stands, and its number of records from a counter that only the loop over the array moves. -/
namespace KvStore

variable {cfg : RdbConfig} {io : SaveIO} {e : Engines} {fs fs' : Files} {filename : CString}
  {array others : List RdbRecord}

/-- The bytes that a save adds to a file of `n` bytes: with the checksum on the padding and the
footer. -/
def trailerBytes (cfg : RdbConfig) (n : ℕ) : ℕ :=
  if cfg.rdbCrc64 then rdbAlignSize n - n + rdbFooterSize else 0

/-- The records of the engines stand in the file between the header and what is added to them, and
the header gives their size and their number. -/
def HeaderTruthful (cfg : RdbConfig) (e : Engines) (file : List UInt8) : Prop :=
  ∃ array others, Saves e array others ∧
    let data := (array ++ others).flatMap RdbRecord.bytes
    file.length = rdbHeaderBytes + data.length + trailerBytes cfg (rdbHeaderBytes + data.length) ∧
    (file.drop rdbHeaderBytes).take data.length = data ∧
    (RdbHeader.read file).dataSize = data.length ∧
    (RdbHeader.read file).recordCount = (array ++ others).length

/-- The tree and the hash table have no entry. -/
def OthersEmpty (e : Engines) : Prop :=
  (e.rbtree.root = null ∨ e.rbtree.root = e.rbtree.nil) ∧ ∀ i, e.hash.nodes i = some []

theorem Saves.others_eq_nil_iff (h : Saves e array others) : others = [] ↔ OthersEmpty e := by
  obtain ⟨tree, hash, ht, hh, rfl⟩ := h.others
  rw [List.append_eq_nil_iff]
  apply and_congr
  · rw [← rbtreeRecords_eq_nil, ht, Option.some.injEq]
  · rw [← hashRecords_eq_nil, hh, Option.some.injEq]

/-- The records of the array alone fit the two fields. -/
theorem Saves.array_small (h : Saves e array []) :
    (array.flatMap RdbRecord.bytes).length < 2 ^ 32 ∧ array.length < 2 ^ 32 := by
  constructor
  · by_contra hbig
    exact h.others_ne_nil (by simpa using Nat.le_of_not_lt hbig) rfl
  · have hle := length_arrayRecords h.array
    rw [kvsArraySize] at hle
    omega

/-- The number in the header is that of the records of the array. -/
theorem Saves.recordCount (h : Saves e array others) (rest : List UInt8) :
    (RdbHeader.read ((savedHeader cfg io array others).bytes ++ rest)).recordCount = array.length := by
  have hle := length_arrayRecords h.array
  rw [kvsArraySize] at hle
  rw [RdbHeader.read_bytes]
  exact Nat.mod_eq_of_lt (show array.length < 2 ^ 32 by omega)

theorem Saves.plainFile_truthful (h : Saves e array []) (hcrc : cfg.rdbCrc64 = false) :
    HeaderTruthful cfg e (plainFile cfg io array []) := by
  have hsmall := h.array_small.1
  refine ⟨array, [], h, ?_, ?_, ?_, ?_⟩
  · rw [plainFile, List.length_append, RdbHeader.length_bytes, trailerBytes, hcrc]
    rfl
  · rw [plainFile_data, List.take_length]
  · rw [plainFile_dataSize]
    exact Nat.mod_eq_of_lt (by rwa [List.append_nil])
  · rw [plainFile, h.recordCount, List.append_nil]

theorem sealedFile_truthful (h : Saves e [] []) (hcrc : cfg.rdbCrc64 = true) :
    HeaderTruthful cfg e (sealedFile cfg io [] []) := by
  refine ⟨[], [], h, ?_, rfl, ?_, ?_⟩
  · rw [sealedFile, List.length_append, RdbHeader.length_bytes, trailerBytes, hcrc]
    rfl
  · rw [sealedFile, RdbHeader.read_bytes]
    rfl
  · rw [sealedFile, h.recordCount]
    rfl

/-- The header of a snapshot is right exactly when the tree and the hash table had no entry. -/
theorem kvsRdbSave_truthful_iff (hen : cfg.rdbEnabled = true)
    (hsave : kvsRdbSave cfg io e fs filename = some (0, fs')) :
    (∃ file, fs' filename = some file ∧ HeaderTruthful cfg e file) ↔ OthersEmpty e := by
  obtain ⟨array, others, hsaves, hfile⟩ := kvsRdbSave_cases hen hsave
  rw [← hsaves.others_eq_nil_iff]
  constructor
  · rintro ⟨file, hf, array', others', hsaves', -, -, -, hcount⟩
    obtain ⟨rfl, rfl⟩ := hsaves.unique hsaves'
    have harray : (RdbHeader.read file).recordCount = array'.length := by
      obtain ⟨-, hplain⟩ | ⟨-, -, hsealed⟩ := hfile
      · cases hf.symm.trans hplain
        exact hsaves.recordCount _
      · cases hf.symm.trans hsealed
        exact hsaves.recordCount _
    rw [harray, List.length_append] at hcount
    exact List.length_eq_zero_iff.mp (by omega)
  · rintro rfl
    obtain ⟨hcrc, hplain⟩ | ⟨hcrc, hwrap, hsealed⟩ := hfile
    · exact ⟨_, hplain, hsaves.plainFile_truthful hcrc⟩
    · -- so few bytes are a multiple of `2 ^ 32` only when there are none
      have hnone : array = [] := by
        rw [List.append_nil, Nat.mod_eq_of_lt hsaves.array_small.1, List.length_eq_zero_iff] at hwrap
        cases array with
        | nil => rfl
        | cons r rs => cases hwrap
      subst hnone
      exact ⟨_, hsealed, sealedFile_truthful hsaves hcrc⟩

theorem kvsRdbSave_truthful_iff_array : ∃ fs' file,
    kvsRdbSave uncheckedConfig readyIO oneKey (fun _ => none) .empty = some (0, fs') ∧
      fs' .empty = some file ∧ HeaderTruthful uncheckedConfig oneKey file := by
  obtain ⟨fs', hsave⟩ := oneKey_saved
  obtain ⟨file, hfile, htrue⟩ := (kvsRdbSave_truthful_iff rfl hsave).mpr ⟨.inr rfl, fun _ => rfl⟩
  exact ⟨fs', file, hsave, hfile, htrue⟩

/-- A snapshot of one key of the tree says that it has no record. -/
theorem kvsRdbSave_miscounts_tree : ∃ T,
    Fuel.Returns (fun n => kvsRbtreeSet n freshEngines.rbtree ⟨some 2, true, true⟩
      (some (.read [97])) (some (.read [98]))) (0, T) ∧
    ∃ fs' file, kvsRdbSave uncheckedConfig readyIO { freshEngines with rbtree := T }
        (fun _ => none) .empty = some (0, fs') ∧
      fs' .empty = some file ∧ (RdbHeader.read file).recordCount = 0 ∧
      ¬ HeaderTruthful uncheckedConfig { freshEngines with rbtree := T } file := by
  have htree : ∃ T, Fuel.Returns (fun n => kvsRbtreeSet n freshEngines.rbtree ⟨some 2, true, true⟩
      (some (.read [97])) (some (.read [98]))) (0, T) ∧
      rbtreeRecords T = some [⟨1, .read [97], .read [98]⟩] := ⟨_, .last fun n => rfl, rfl⟩
  obtain ⟨T, hret, hT⟩ := htree
  have hhash : hashRecords freshEngines.hash = some [] := hashRecords_eq_nil.mpr fun _ => rfl
  have hsaves : Saves { freshEngines with rbtree := T } [] [⟨1, .read [97], .read [98]⟩] :=
    ⟨rfl, _, _, hT, hhash, rfl⟩
  refine ⟨T, hret, _, _, by rw [hsaves.kvsRdbSave rfl rfl, saveRecords_plain rfl],
    Function.update_self .., ?_, ?_⟩
  · exact hsaves.recordCount _
  · rintro ⟨array, others, hother, -, -, -, hcount⟩
    obtain ⟨rfl, rfl⟩ := hsaves.unique hother
    rw [hsaves.recordCount] at hcount
    cases hcount

end KvStore
