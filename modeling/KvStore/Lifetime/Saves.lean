import KvStore.Lifetime.Snapshot
import KvStore.Rdb.Reload

/-! What a save makes of the maps that the snapshot keeps, in every configuration and whatever the
system answers, and the engines that a start makes of the file. -/
namespace KvStore
open KeyValue Fuel

section Restores

variable {cfg : RdbConfig} {file : Option (List UInt8)} {D : EngineMaps} {lio : LoadIO}

/-- A load of the file passes on the records of the maps. -/
def Restores (cfg : RdbConfig) (file : Option (List UInt8)) (D : EngineMaps) : Prop :=
  ∃ rs, D = storedMaps rs ∧
    (∀ r ∈ rs, ∃ x : Engine, r.type = x.recordType ∧ (x = .hash → HashTable.InRange r.key)) ∧
    (rs.filter (·.type = 0)).length ≤ kvsArraySize ∧
    ∀ lio : LoadIO, (∀ i, lio.room i = (true, true)) → (kvsRdbLoad cfg lio file).calls = rs

theorem storedMaps_nil : storedMaps [] = EngineMaps.empty := rfl

/-- A file that gives no record. -/
theorem Restores.empty
    (h : ∀ lio : LoadIO, (kvsRdbLoad cfg lio file).calls = []) : Restores cfg file .empty :=
  ⟨[], rfl, by simp, Nat.zero_le _, fun lio _ => h lio⟩

theorem kvsRdbLoad_none : (kvsRdbLoad cfg lio none).calls = [] := by
  rw [kvsRdbLoad]
  split_ifs
  · rfl
  · rfl
  · rfl

/-- Nothing is passed on of a file whose header counts no data. -/
theorem kvsRdbLoad_dataSize {f : List UInt8} (h : (RdbHeader.read f).dataSize = 0) :
    (kvsRdbLoad cfg lio (some f)).calls = [] := by
  have hloop : ∀ room n bs, loadLoop room n 0 bs 0 = ([], bs) := by
    intro room n bs
    cases n with
    | zero => rfl
    | succ n => rfl
  rw [kvsRdbLoad]
  split_ifs
  · rfl
  · rfl
  · rfl
  · simp only [h, hloop, List.filter_nil]

theorem kvsRdbLoad_emptied : (kvsRdbLoad cfg lio (some [])).calls = [] :=
  kvsRdbLoad_dataSize rfl

end Restores

/-- What a save of the engines makes of the maps of the snapshot, and whether it reports
success. -/
inductive SavedTo (cfg : ServerConfig) (io : SaveIO) (V D : EngineMaps) : EngineMaps → Bool → Prop
  | off (hen : cfg.rdb.rdbEnabled = false) : SavedTo cfg io V D D true
  | unopened (hen : cfg.rdb.rdbEnabled = true) (hopen : io.opens = false)
    (ho : ¬ Overwrites cfg.rdb io cfg.rdbFile) : SavedTo cfg io V D D false
  | emptied (hen : cfg.rdb.rdbEnabled = true) (hopen : io.opens = false)
    (ho : Overwrites cfg.rdb io cfg.rdbFile) : SavedTo cfg io V D .empty false
  | checked {saved : Bool} (hen : cfg.rdb.rdbEnabled = true) (hopen : io.opens = true)
    (hcrc : cfg.rdb.rdbCrc64 = true) (h : saved = true → V = .empty) :
    SavedTo cfg io V D .empty saved
  | plain {D' : EngineMaps} (hen : cfg.rdb.rdbEnabled = true) (hopen : io.opens = true)
    (hcrc : cfg.rdb.rdbCrc64 = false) (h : SnapshotOf V D') : SavedTo cfg io V D D' true

section Save

variable {cfg : ServerConfig} {io : SaveIO} {V D D' : EngineMaps} {saved : Bool} {e : Engines}
  {fs : Files} {A H : Finset CString}

/-- The keys that all requests use leave the size field of the header large enough. -/
structure Budget (A H : Finset CString) : Prop where
  array : A.card < kvsArraySize
  bytes : (A.card + H.card + 1) * fittingBytes < 2 ^ 32

theorem Recorded.size_lt {M : EngineMaps} {array others : List RdbRecord}
    (h : Recorded e M A H array others) (hb : Budget A H) :
    ((array ++ others).flatMap RdbRecord.bytes).length < 2 ^ 32 :=
  ((length_bytes_le h.loads).trans (Nat.mul_le_mul_right _ h.length_le)).trans_lt hb.bytes

/-- The file of a save without checksum restores what the engines held, but for the tree. -/
theorem Recorded.restores {rdb : RdbConfig} {M : EngineMaps} {array others : List RdbRecord}
    (h : Recorded e M A H array others) (hb : Budget A H) (hen : rdb.rdbEnabled = true)
    (hcrc : rdb.rdbCrc64 = false) :
    Restores rdb (some (plainFile rdb io array others)) (storedMaps (array ++ others)) := by
  refine ⟨array ++ others, rfl, ?_, h.filter_le.trans hb.array.le, ?_⟩
  · intro r hr
    obtain ⟨⟨x, hx⟩, hentry⟩ := h.loads r hr
    exact ⟨x, hx, fun _ => hentry.inRange⟩
  · exact fun lio hroom => plainFile_calls io hen hcrc hroom h.loads (h.size_lt hb)

/-- Engines without a record hold nothing. -/
theorem SnapshotOf.of_empty (h : SnapshotOf V .empty) : V = .empty := by
  obtain ⟨harray, hhash, htree⟩ := h
  funext x
  cases x with
  | array => exact harray.symm
  | hash => exact hhash.symm
  | tree =>
    generalize hd : EngineMaps.empty .tree = d at htree
    cases htree with
    | none hno =>
      funext k
      exact hno k
    | @one k v hk =>
      have hat := congrFun hd k
      rw [Function.update_self] at hat
      cases hat

/-- A save with the checksum on leaves a file that restores nothing. -/
theorem Recorded.checked {M : EngineMaps} {array others : List RdbRecord} {rdb : RdbConfig}
    (h : Recorded e M A H array others) (hb : Budget A H) (hen : rdb.rdbEnabled = true)
    (hcrc : rdb.rdbCrc64 = true) :
    Restores rdb (some (saveRecords rdb io array others).2) .empty ∧
      (0 ≤ (saveRecords rdb io array others).1 → M = .empty) := by
  by_cases hpass : io.room = true ∧
      ((array ++ others).flatMap RdbRecord.bytes).length % 2 ^ 32 = 0
  · obtain ⟨hroom, hzero⟩ := hpass
    rw [saveRecords_passes hcrc hroom hzero]
    have hdata : (RdbHeader.read ((savedHeader rdb io array others).bytes ++ (emptyFooter ++
        ((array ++ others).flatMap RdbRecord.bytes).drop rdbFooterSize))).dataSize = 0 := by
      rw [RdbHeader.read_bytes]
      simp only [savedHeader, hzero]
      rfl
    refine ⟨.empty fun lio => kvsRdbLoad_dataSize hdata, fun _ => ?_⟩
    rw [Nat.mod_eq_of_lt (h.size_lt hb)] at hzero
    have hnil : array ++ others = [] := by
      cases hl : array ++ others with
      | nil => rfl
      | cons r rs =>
        rw [hl, List.flatMap_cons, List.length_append, RdbRecord.bytes, List.length_cons] at hzero
        omega
    have hsnap := h.snapshot
    rw [hnil, storedMaps_nil] at hsnap
    exact hsnap.of_empty
  · have hfail : io.room = false ∨
        ((array ++ others).flatMap RdbRecord.bytes).length % 2 ^ 32 ≠ 0 := by
      cases hr : io.room with
      | false => exact .inl rfl
      | true => exact .inr fun hz => hpass ⟨hr, hz⟩
    rw [saveRecords_fails hcrc hfail]
    have hneg : ¬ (0 : ℤ) ≤ -1 := by decide
    refine ⟨.empty fun lio => ?_, fun hle => absurd hle hneg⟩
    rw [kvsRdbLoad_unverified hen (h.saves.failed_not_verified hcrc)]

/-- Every save comes back, and the file behind it restores what it made of the maps. -/
theorem Engines.Hold.save (h : e.Hold V) (hV : V.Within A H) (hb : Budget A H) (io : SaveIO)
    (hD : Restores cfg.rdb (fs cfg.rdbFile) D) :
    ∃ c fs' D', kvsRdbSave cfg.rdb io e fs cfg.rdbFile = some (c, fs') ∧
      SavedTo cfg io V D D' (decide (0 ≤ c)) ∧ Restores cfg.rdb (fs' cfg.rdbFile) D' := by
  cases hen : cfg.rdb.rdbEnabled with
  | false =>
    refine ⟨0, fs, D, ?_, .off hen, hD⟩
    simp [kvsRdbSave, hen]
  | true =>
    cases hopen : io.opens with
    | false =>
      have hsave : kvsRdbSave cfg.rdb io e fs cfg.rdbFile =
          some (-1, backedUp cfg.rdb io fs cfg.rdbFile) := by
        simp [kvsRdbSave, hen, hopen, backedUp]
      by_cases ho : Overwrites cfg.rdb io cfg.rdbFile
      · refine ⟨_, _, .empty, hsave, .emptied hen hopen ho, .empty fun lio => ?_⟩
        cases hfile : fs cfg.rdbFile with
        | none =>
          have hkept : backedUp cfg.rdb io fs cfg.rdbFile cfg.rdbFile = none := by
            simp [backedUp, hfile]
          rw [hkept]
          exact kvsRdbLoad_none
        | some f =>
          rw [backedUp_overwritten ho (by rw [hfile]; rfl)]
          exact kvsRdbLoad_emptied
      · refine ⟨_, _, D, hsave, .unopened hen hopen ho, ?_⟩
        rwa [backedUp_filename ho]
    | true =>
      obtain ⟨array, others, hrec⟩ := h.recorded hV
      have hsave : kvsRdbSave cfg.rdb io e fs cfg.rdbFile =
          some ((saveRecords cfg.rdb io array others).1, _) := hrec.saves.kvsRdbSave hen hopen
      cases hcrc : cfg.rdb.rdbCrc64 with
      | true =>
        have hchecked : Restores cfg.rdb (some (saveRecords cfg.rdb io array others).2) .empty ∧
            (0 ≤ (saveRecords cfg.rdb io array others).1 → V = .empty) := hrec.checked hb hen hcrc
        obtain ⟨hrestores, hempty⟩ := hchecked
        refine ⟨_, _, .empty, hsave, .checked hen hopen hcrc ?_, ?_⟩
        · exact fun hle => hempty (of_decide_eq_true hle)
        · rwa [Function.update_self]
      | false =>
        rw [saveRecords_plain hcrc] at hsave
        refine ⟨_, _, _, hsave, .plain hen hopen hcrc hrec.snapshot, ?_⟩
        rw [Function.update_self]
        exact hrec.restores hb hen hcrc

end Save

end KvStore
