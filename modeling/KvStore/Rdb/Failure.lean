import KvStore.Array.Slots
import KvStore.Rdb.Save

/-! Saving with the checksum on. The save comes to its end only when the engines hold nothing, or
so much that the size field wraps to 0; every other save empties the file and fails. -/
namespace KvStore
open Endian

variable {cfg : RdbConfig} {io : SaveIO} {e : Engines} {fs fs' : Files} {filename : CString}
  {rs array tree hash : List RdbRecord} {t : ℕ → ArrayItem} {i n : ℕ}

theorem arrayRecords_type (h : arrayRecords t i n = some rs) : ∀ r ∈ rs, r.type = 0 := by
  induction n generalizing i rs with
  | zero =>
    cases h
    simp
  | succ n ih =>
    rw [arrayRecords] at h
    split_ifs at h
    split at h
    · exact ih h
    · obtain ⟨rs', hrs', rfl⟩ := Option.map_eq_some_iff.mp h
      intro r hr
      obtain rfl | hr := List.mem_cons.mp hr
      · rfl
      · exact ih hrs' r hr
    · cases h

theorem rbtreeRecords_type {T : Rbtree} (h : rbtreeRecords T = some rs) : ∀ r ∈ rs, r.type = 1 := by
  unfold rbtreeRecords at h
  split_ifs at h
  · split at h
    · cases h
      intro r hr
      rw [List.mem_singleton.mp hr]
    · cases h
  · cases h
    simp

theorem mapM_forall {α β : Type*} {f : α → Option β} {P : β → Prop} {l : List α} {l' : List β}
    (hf : ∀ a b, f a = some b → P b) (h : l.mapM f = some l') : ∀ b ∈ l', P b := by
  induction l generalizing l' with
  | nil =>
    simp only [List.mapM_nil, Option.pure_def, Option.some.injEq] at h
    subst h
    simp
  | cons a l ih =>
    simp only [List.mapM_cons, Option.pure_def, Option.bind_eq_bind, Option.bind_eq_some_iff,
      Option.some.injEq] at h
    obtain ⟨b, hb, l'', hl'', rfl⟩ := h
    intro b' hb'
    obtain rfl | hb' := List.mem_cons.mp hb'
    · exact hf a b' hb
    · exact ih hl'' b' hb'

theorem hashRecords_type {h : HashTable} (hr : hashRecords h = some rs) : ∀ r ∈ rs, r.type = 2 := by
  obtain ⟨ls, hls, rfl⟩ := Option.map_eq_some_iff.mp hr
  have hchains : ∀ l ∈ ls, ∀ r ∈ l, r.type = 2 := by
    refine mapM_forall ?_ hls
    intro i l hl
    obtain ⟨chain, -, hl⟩ := Option.bind_eq_some_iff.mp hl
    refine mapM_forall ?_ hl
    intro node r hnode
    unfold HashNode.record at hnode
    split at hnode
    · cases hnode
      rfl
    · cases hnode
  intro r hr
  obtain ⟨l, hl, hr⟩ := List.mem_flatten.mp hr
  exact hchains l hl r hr

/-- The files as `kvs_rdb_save` finds them behind the backup. -/
def backedUp (cfg : RdbConfig) (io : SaveIO) (fs : Files) (filename : CString) : Files :=
  if cfg.rdbBackup ∧ (fs filename).isSome then (rdbCreateBackup cfg io fs filename).2 else fs

/-- The records that a save writes, those of the array first. -/
structure Saves (e : Engines) (array others : List RdbRecord) : Prop where
  array : arrayRecords e.array.table 0 e.array.total = some array
  others : ∃ tree hash, rbtreeRecords e.rbtree = some tree ∧ hashRecords e.hash = some hash ∧
    others = tree ++ hash

theorem Saves.others_type (h : Saves e array rs) : ∀ r ∈ rs, r.type = 1 ∨ r.type = 2 := by
  obtain ⟨tree, hash, ht, hh, rfl⟩ := h.others
  intro r hr
  obtain hr | hr := List.mem_append.mp hr
  · exact .inl (rbtreeRecords_type ht r hr)
  · exact .inr (hashRecords_type hh r hr)

theorem Saves.type (h : Saves e array rs) : ∀ r ∈ array ++ rs, r.type ≤ 2 := by
  intro r hr
  obtain hr | hr := List.mem_append.mp hr
  · rw [arrayRecords_type h.array r hr]
    decide
  · obtain ht | ht := h.others_type r hr
    · rw [ht]
      decide
    · rw [ht]
      decide

theorem Saves.kvsRdbSave (h : Saves e array rs) (hen : cfg.rdbEnabled = true)
    (hopen : io.opens = true) :
    kvsRdbSave cfg io e fs filename =
      some ((saveRecords cfg io array rs).1,
        Function.update (backedUp cfg io fs filename) filename
          (some (saveRecords cfg io array rs).2)) := by
  obtain ⟨tree, hash, ht, hh, rfl⟩ := h.others
  simp [KvStore.kvsRdbSave, hen, hopen, h.array, ht, hh, backedUp]

/-- A save that comes back after `fopen` has read all records. -/
theorem saves_of_kvsRdbSave {c : ℤ} (hen : cfg.rdbEnabled = true) (hopen : io.opens = true)
    (h : kvsRdbSave cfg io e fs filename = some (c, fs')) : ∃ array others, Saves e array others := by
  simp only [kvsRdbSave, hen, hopen, Bool.not_true, Bool.false_eq_true, if_false,
    Option.bind_eq_some_iff] at h
  obtain ⟨array, ha, tree, ht, hash, hh, -⟩ := h
  exact ⟨array, tree ++ hash, ha, tree, hash, ht, hh, rfl⟩

/-- What a failed save with the checksum on leaves does not pass the check. -/
theorem Saves.failed_not_verified (h : Saves e array rs) (hcrc : cfg.rdbCrc64 = true) {room : Bool} :
    rdbVerifyFileIntegrity cfg room
      (some ((saveHeader cfg io).bytes ++ (array ++ rs).flatMap RdbRecord.bytes)) ≠ 0 := by
  intro hzero
  have hsize : (RdbHeader.read ((saveHeader cfg io).bytes ++
      (array ++ rs).flatMap RdbRecord.bytes)).dataSize = 0 := by
    rw [RdbHeader.read_bytes]
    rfl
  have hlen := ((rdbVerifyFileIntegrity_eq_zero.mp hzero).2.2.2 hcrc).1
  rw [List.length_append, RdbHeader.length_bytes, hsize] at hlen
  exact rdbVerifyFileIntegrity_records h.type hcrc List.suffix_rfl (by omega) hsize hzero

/-- Nor does a file whose size field has wrapped to 0. -/
theorem Saves.wrapped_not_verified {scfg : RdbConfig} (h : Saves e array rs)
    (hcrc : cfg.rdbCrc64 = true) {room : Bool} (hwrap : ((array ++ rs).flatMap RdbRecord.bytes).length % 2 ^ 32 = 0)
    (hne : array ++ rs ≠ []) :
    rdbVerifyFileIntegrity cfg room (some ((savedHeader scfg io array rs).bytes ++
      (emptyFooter ++ ((array ++ rs).flatMap RdbRecord.bytes).drop rdbFooterSize))) ≠ 0 := by
  have hpos : 0 < ((array ++ rs).flatMap RdbRecord.bytes).length := by
    obtain ⟨r, l, hl⟩ := List.exists_cons_of_ne_nil hne
    rw [hl, List.flatMap_cons, List.length_append, RdbRecord.bytes, List.length_cons]
    omega
  rw [← List.append_assoc]
  refine rdbVerifyFileIntegrity_records h.type hcrc (List.drop_suffix _ _) ?_ ?_
  · rw [List.length_drop, rdbFooterSize]
    omega
  · rw [List.append_assoc, RdbHeader.read_bytes]
    simp only [savedHeader, hwrap]
    rfl

/-- No engine holds an entry that a save would write. -/
def Engines.Empty (e : Engines) : Prop :=
  (∀ i < e.array.total, i < kvsArraySize ∧ (e.array.table i).key = .null) ∧
  (e.rbtree.root = null ∨ e.rbtree.root = e.rbtree.nil) ∧ ∀ i, e.hash.nodes i = some []

theorem arrayRecords_eq_nil : arrayRecords t i n = some [] ↔
    ∀ j, i ≤ j → j < i + n → j < kvsArraySize ∧ (t j).key = .null := by
  induction n generalizing i with
  | zero =>
    constructor
    · intro _ j hj hj'
      omega
    · intro _
      rfl
  | succ n ih =>
    constructor
    · intro h j hj hjn
      rw [arrayRecords] at h
      split_ifs at h with hi
      split at h
      · have hkey : (t i).key = .null := by assumption
        by_cases hji : j = i
        · rw [hji]
          exact ⟨by omega, hkey⟩
        · exact ih.mp h j (by omega) (by omega)
      · simp at h
      · cases h
    · intro h
      obtain ⟨hi, hkey⟩ := h i le_rfl (by omega)
      rw [arrayRecords, if_neg (by omega), hkey]
      refine ih.mpr ?_
      intro j hj hjn
      exact h j (by omega) (by omega)

theorem flatten_mapM_eq_nil {α β : Type*} {f : α → Option (List β)} {l : List α} :
    (l.mapM f).map List.flatten = some [] ↔ ∀ a ∈ l, f a = some [] := by
  induction l with
  | nil => simp
  | cons a l ih =>
    rw [List.forall_mem_cons, ← ih]
    cases hfa : f a with
    | none => simp [hfa]
    | some x => cases hl : l.mapM f <;> simp [hfa, hl]

theorem hashRecords_eq_nil {h : HashTable} :
    hashRecords h = some [] ↔ ∀ i, h.nodes i = some [] := by
  rw [hashRecords, flatten_mapM_eq_nil]
  constructor
  · intro hi i
    have hchain := hi i (List.mem_finRange i)
    cases hn : h.nodes i with
    | none => simp [hn] at hchain
    | some chain =>
      cases chain with
      | nil => rfl
      | cons node chain => simp [hn, Option.bind_eq_some_iff] at hchain
  · intro hi i _
    rw [hi i]
    rfl

theorem rbtreeRecords_eq_nil {T : Rbtree} :
    rbtreeRecords T = some [] ↔ T.root = null ∨ T.root = T.nil := by
  unfold rbtreeRecords
  split_ifs with h
  · constructor
    · intro hr
      split at hr
      · simp at hr
      · cases hr
    · intro hr
      tauto
  · simp only [true_iff]
    tauto

theorem Engines.empty_iff : e.Empty ↔ Saves e [] [] := by
  constructor
  · rintro ⟨ha, ht, hh⟩
    refine ⟨arrayRecords_eq_nil.mpr fun j _ hj => ha j (by omega), [], [],
      rbtreeRecords_eq_nil.mpr ht, hashRecords_eq_nil.mpr hh, rfl⟩
  · rintro ⟨ha, tree, hash, ht, hh, hnil⟩
    obtain ⟨rfl, rfl⟩ := List.append_eq_nil_iff.mp hnil.symm
    refine ⟨?_, rbtreeRecords_eq_nil.mp ht, hashRecords_eq_nil.mp hh⟩
    intro j hj
    exact arrayRecords_eq_nil.mp ha j (Nat.zero_le j) (by omega)

theorem Saves.unique {array' rs' : List RdbRecord} (h : Saves e array rs) (h' : Saves e array' rs') :
    array' = array ∧ rs' = rs := by
  obtain ⟨tree, hash, ht, hh, rfl⟩ := h.others
  obtain ⟨tree', hash', ht', hh', rfl⟩ := h'.others
  have ha := h'.array
  rw [h.array] at ha
  rw [ht] at ht'
  rw [hh] at hh'
  cases ha
  cases ht'
  cases hh'
  exact ⟨rfl, rfl⟩

/-- With the checksum on and everything the system is asked for at hand, a save returns 0 and
leaves a file that passes the check exactly when the engines hold nothing (or saving is switched
off and the file passed before). -/
theorem kvsRdbSave_verified_iff (cfg : RdbConfig) (io : SaveIO) (e : Engines) (fs : Files)
    (filename : CString) (hcrc : cfg.rdbCrc64 = true) (hopen : io.opens = true)
    (hroom : io.room = true) :
    (∃ fs', kvsRdbSave cfg io e fs filename = some (0, fs') ∧
      rdbVerifyFileIntegrity cfg true (fs' filename) = 0) ↔
    (cfg.rdbEnabled = true ∧ e.Empty) ∨
      (cfg.rdbEnabled = false ∧ rdbVerifyFileIntegrity cfg true (fs filename) = 0) := by
  cases hen : cfg.rdbEnabled with
  | false => simp [kvsRdbSave, hen]
  | true =>
    simp only [true_and, Bool.true_eq_false, false_and, or_false]
    constructor
    · rintro ⟨fs', hs, hv⟩
      obtain ⟨array, rs, hsaves⟩ := saves_of_kvsRdbSave hen hopen hs
      rw [hsaves.kvsRdbSave hen hopen] at hs
      by_cases hwrap : ((array ++ rs).flatMap RdbRecord.bytes).length % 2 ^ 32 = 0
      · rw [saveRecords_passes hcrc hroom hwrap] at hs
        cases hs
        rw [Function.update_self] at hv
        by_cases hne : array ++ rs = []
        · obtain ⟨rfl, rfl⟩ := List.append_eq_nil_iff.mp hne
          exact Engines.empty_iff.mpr hsaves
        · exact absurd hv (hsaves.wrapped_not_verified hcrc hwrap hne)
      · rw [saveRecords_fails hcrc (.inr hwrap)] at hs
        cases hs
    · intro hempty
      have hsaves := Engines.empty_iff.mp hempty
      rw [hsaves.kvsRdbSave hen hopen, saveRecords_passes hcrc hroom rfl]
      refine ⟨_, rfl, ?_⟩
      rw [Function.update_self]
      have hsealed : rdbVerifyFileIntegrity cfg true
          (some (sealed (savedHeader cfg io [] []) [] [] (rdbCalculateCrc64 []))) = 0 :=
        rdbVerifyFileIntegrity_sealed rfl rfl rfl (by decide) rfl
      exact hsealed

/-- Engines as they are after start-up, with every slot of the hash table `NULL`. -/
def freshEngines : Engines where
  array := kvsArrayCreate
  rbtree := ⟨fun _ => .black, fun _ _ => 1, fun _ => 1, fun _ => .empty, fun _ => .uninit, 1, 1, fun _ => false, []⟩
  hash := kvsHashCreate fun _ => some []

def checkedConfig : RdbConfig := ⟨true, false, true, false, .empty⟩

def readyIO : SaveIO := ⟨true, true, true, 0, .empty⟩

theorem kvsRdbSave_verified_iff_fresh : freshEngines.Empty ∧
    ∃ fs', kvsRdbSave checkedConfig readyIO freshEngines (fun _ => none) .empty = some (0, fs') ∧
      rdbVerifyFileIntegrity checkedConfig true (fs' .empty) = 0 := by
  have hempty : freshEngines.Empty :=
    ⟨fun i hi => absurd hi (Nat.not_lt_zero i), .inr rfl, fun _ => rfl⟩
  exact ⟨hempty, (kvsRdbSave_verified_iff checkedConfig readyIO freshEngines _ _ rfl rfl rfl).mpr
    (.inl ⟨rfl, hempty⟩)⟩

/-- The engines after one key was set in the array. -/
def oneKey : Engines :=
  { freshEngines with array := freshEngines.array.filled 0 (.read [97]) .empty }

theorem oneKey_saves : Saves oneKey [⟨0, .read [97], .empty⟩] [] := by
  refine ⟨rfl, [], [], rfl, ?_, rfl⟩
  rw [hashRecords_eq_nil]
  intro i
  rfl

theorem oneKey_failed (fs : Files) (filename : CString) :
    kvsRdbSave checkedConfig readyIO oneKey fs filename =
      some (-1, Function.update fs filename (some ((saveHeader checkedConfig readyIO).bytes ++
        [0, 1, 0, 97, 0, 0]))) := by
  rw [oneKey_saves.kvsRdbSave rfl rfl, saveRecords_fails rfl (.inr (by decide))]
  rfl

/-- With one key in the array the save fails for want of the bytes it wrote. -/
theorem kvsRdbSave_one_key_fails :
    ¬ ∃ fs', kvsRdbSave checkedConfig readyIO oneKey (fun _ => none) .empty = some (0, fs') ∧
      rdbVerifyFileIntegrity checkedConfig true (fs' .empty) = 0 := by
  rintro ⟨fs', hs, -⟩
  rw [oneKey_failed] at hs
  cases hs

/-- The backup of a save has the name of the file itself, and is made. -/
def Overwrites (cfg : RdbConfig) (io : SaveIO) (filename : CString) : Prop :=
  cfg.rdbBackup = true ∧ cfg.backupDir.length < maxPathLen - 50 ∧
  (backupFile cfg io.stamp).length < maxPathLen ∧ io.backupOpens = true ∧
  backupFile cfg io.stamp = filename

/-- The number of bytes that records take in a file. -/
def recordBytes (rs : List RdbRecord) : ℕ :=
  (rs.map fun r => 5 + r.key.length % 2 ^ 16 + r.value.length % 2 ^ 16).sum

theorem length_flatMap_bytes (rs : List RdbRecord) :
    (rs.flatMap RdbRecord.bytes).length = recordBytes rs := by
  rw [List.length_flatMap, recordBytes]
  congr 1
  apply List.map_congr_left
  intro r _
  have htake : ∀ s : CString, (s.bytes.take (s.length % 2 ^ 16)).length = s.length % 2 ^ 16 := by
    intro s
    rw [List.length_take]
    exact Nat.min_eq_left (Nat.mod_le _ _)
  simp only [RdbRecord.bytes, List.length_cons, List.length_append, length_toBytes, htake]
  omega

/-- No exit of the save that returns -1 comes after the file was emptied. -/
def KeepsFile (cfg : RdbConfig) (io : SaveIO) (e : Engines) (filename : CString) : Prop :=
  cfg.rdbEnabled = false ∨ (io.opens = false ∧ ¬ Overwrites cfg io filename) ∨
  (io.opens = true ∧ (cfg.rdbCrc64 = true → ∀ array others, Saves e array others →
    io.room = true ∧ recordBytes (array ++ others) % 2 ^ 32 = 0))

theorem backedUp_filename (hno : ¬ Overwrites cfg io filename) :
    backedUp cfg io fs filename filename = fs filename := by
  unfold backedUp rdbCreateBackup
  split_ifs with hb h₁ h₂ h₃ h₄
  · rfl
  · rfl
  · rfl
  · rfl
  · have hne : filename ≠ backupFile cfg io.stamp := by
      intro he
      refine hno ⟨hb.1, by omega, by omega, by simpa using h₄, he.symm⟩
    simp [Function.update_of_ne hne]
  · rfl

theorem backedUp_overwritten (ho : Overwrites cfg io filename) (hfile : (fs filename).isSome) :
    backedUp cfg io fs filename filename = some [] := by
  obtain ⟨hb, hdir, hname, hopen, rfl⟩ := ho
  have h₁ : ¬ maxPathLen - 50 ≤ cfg.backupDir.length := by omega
  have h₂ : ¬ maxPathLen ≤ (backupFile cfg io.stamp).length := by omega
  simp [backedUp, rdbCreateBackup, hb, hfile, h₁, h₂, hopen]

theorem kvsRdbLoad_unverified {lio : LoadIO} {file : Option (List UInt8)}
    (hen : cfg.rdbEnabled = true)
    (h : rdbVerifyFileIntegrity cfg lio.verifyRoom file ≠ 0) :
    kvsRdbLoad cfg lio file = ⟨-1, [], 0⟩ := by
  simp [kvsRdbLoad, hen, h]

/-- A save that returns -1 leaves a snapshot that could be loaded as it was, for every such
snapshot, exactly when no exit behind `fopen` is taken and the backup is another file. -/
theorem kvsRdbSave_keeps_iff (cfg : RdbConfig) (io : SaveIO) (lio : LoadIO) (e : Engines)
    (fs : Files) (filename : CString) (hgood : (kvsRdbLoad cfg lio (fs filename)).code = 0) :
    (∀ fs', kvsRdbSave cfg io e fs filename = some (-1, fs') →
      kvsRdbLoad cfg lio (fs' filename) = kvsRdbLoad cfg lio (fs filename)) ↔
    KeepsFile cfg io e filename := by
  cases hen : cfg.rdbEnabled with
  | false => simp [kvsRdbSave, KeepsFile, hen]
  | true =>
    have hfile : (fs filename).isSome := by
      cases hf : fs filename with
      | none => simp [hf, kvsRdbLoad, hen, rdbVerifyFileIntegrity] at hgood
      | some file => rfl
    -- a save after which the check fails breaks the property
    have hbreak : ∀ fs', kvsRdbSave cfg io e fs filename = some (-1, fs') →
        rdbVerifyFileIntegrity cfg lio.verifyRoom (fs' filename) ≠ 0 →
        ¬ ∀ fs', kvsRdbSave cfg io e fs filename = some (-1, fs') →
          kvsRdbLoad cfg lio (fs' filename) = kvsRdbLoad cfg lio (fs filename) := by
      intro fs' hs hv hall
      have he := hall fs' hs
      rw [kvsRdbLoad_unverified hen hv] at he
      rw [← he] at hgood
      cases hgood
    cases hopen : io.opens with
    | false =>
      have hs : kvsRdbSave cfg io e fs filename = some (-1, backedUp cfg io fs filename) := by
        simp [kvsRdbSave, hen, hopen, backedUp]
      constructor
      · intro hall
        refine .inr (.inl ⟨hopen, ?_⟩)
        intro ho
        refine hbreak _ hs ?_ hall
        rw [backedUp_overwritten ho hfile]
        simp [rdbVerifyFileIntegrity, rdbHeaderBytes]
      · rintro (h | ⟨-, hno⟩ | ⟨h, -⟩) fs' hs'
        · rw [hen] at h
          cases h
        · rw [hs] at hs'
          cases hs'
          rw [backedUp_filename hno]
        · rw [hopen] at h
          cases h
    | true =>
      constructor
      · intro hall
        refine .inr (.inr ⟨hopen, ?_⟩)
        intro hcrc array others hsaves
        by_contra hfail
        have hf : io.room = false ∨
            ((array ++ others).flatMap RdbRecord.bytes).length % 2 ^ 32 ≠ 0 := by
          rw [length_flatMap_bytes]
          cases hr : io.room with
          | false => exact .inl rfl
          | true => exact .inr fun h => hfail ⟨hr, h⟩
        refine hbreak _ (by rw [hsaves.kvsRdbSave hen hopen, saveRecords_fails hcrc hf]) ?_ hall
        rw [Function.update_self]
        exact hsaves.failed_not_verified hcrc
      · rintro (h | ⟨h, -⟩ | ⟨-, hsafe⟩) fs' hs
        · rw [hen] at h
          cases h
        · rw [hopen] at h
          cases h
        · obtain ⟨array, others, hsaves⟩ := saves_of_kvsRdbSave hen hopen hs
          rw [hsaves.kvsRdbSave hen hopen] at hs
          cases hcrc : cfg.rdbCrc64 with
          | false =>
            rw [saveRecords_plain hcrc] at hs
            cases hs
          | true =>
            obtain ⟨hroom, hsize⟩ := hsafe hcrc array others hsaves
            rw [← length_flatMap_bytes] at hsize
            rw [saveRecords_passes hcrc hroom hsize] at hs
            cases hs

/-- A snapshot without records. -/
def emptySnapshot : List UInt8 :=
  sealed (saveHeader checkedConfig readyIO) [] [] (rdbCalculateCrc64 [])

def roomyIO : LoadIO := ⟨true, fun _ => (true, true)⟩

theorem emptySnapshot_loads : kvsRdbLoad checkedConfig roomyIO (some emptySnapshot) = ⟨0, [], 0⟩ := by
  have hv : rdbVerifyFileIntegrity checkedConfig true (some emptySnapshot) = 0 :=
    rdbVerifyFileIntegrity_sealed rfl rfl rfl (by decide) rfl
  simp only [kvsRdbLoad, roomyIO, hv]
  rfl

theorem kvsRdbSave_keeps_iff_unopened :
    (kvsRdbLoad checkedConfig roomyIO (some emptySnapshot)).code = 0 ∧
    ∀ fs', kvsRdbSave checkedConfig { readyIO with opens := false } oneKey
        (fun _ => some emptySnapshot) .empty = some (-1, fs') →
      kvsRdbLoad checkedConfig roomyIO (fs' .empty) =
        kvsRdbLoad checkedConfig roomyIO (some emptySnapshot) := by
  have hgood : (kvsRdbLoad checkedConfig roomyIO (some emptySnapshot)).code = 0 := by
    rw [emptySnapshot_loads]
  refine ⟨hgood, (kvsRdbSave_keeps_iff checkedConfig { readyIO with opens := false } roomyIO oneKey
    (fun _ => some emptySnapshot) .empty hgood).mpr (.inr (.inl ⟨rfl, ?_⟩))⟩
  rintro ⟨h, -⟩
  cases h

/-- A save of one key over a snapshot that could be loaded fails and leaves a file that cannot. -/
theorem kvsRdbSave_destroys_snapshot :
    (kvsRdbLoad checkedConfig roomyIO (some emptySnapshot)).code = 0 ∧
    ¬ ∀ fs', kvsRdbSave checkedConfig readyIO oneKey (fun _ => some emptySnapshot) .empty =
        some (-1, fs') →
      kvsRdbLoad checkedConfig roomyIO (fs' .empty) =
        kvsRdbLoad checkedConfig roomyIO (some emptySnapshot) := by
  refine ⟨by rw [emptySnapshot_loads], ?_⟩
  intro hall
  have he := hall _ (oneKey_failed _ _)
  have hv : rdbVerifyFileIntegrity checkedConfig roomyIO.verifyRoom
      (some ((saveHeader checkedConfig readyIO).bytes ++ [0, 1, 0, 97, 0, 0])) ≠ 0 :=
    oneKey_saves.failed_not_verified rfl
  rw [emptySnapshot_loads, Function.update_self, kvsRdbLoad_unverified rfl hv] at he
  cases he

end KvStore
