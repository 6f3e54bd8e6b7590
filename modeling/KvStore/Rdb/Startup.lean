import KvStore.Rdb.ConfigTrip

/-! Where a program started with a path takes its snapshot from. The path of the command line is set
before the configuration file is read, so that an entry of the file has the last word. -/
namespace KvStore

variable {cfg : RdbSettings} {fs : Files} {path : CString} {opens : Bool} {bs value : List UInt8}

/-- `RDB_CONFIG_FILE`. -/
def rdbConfigFile : CString := .read (text ['k', 'v', 's', '.', 'c', 'o', 'n', 'f'])

/-- A file that is missing is written with what is set. -/
def rdbConfigInit (opens : Bool) (cfg : RdbSettings) (fs : Files) : RdbSettings × Files :=
  let r := rdbConfigLoad cfg (fs rdbConfigFile)
  if r.1 ≠ 0 then (r.2, (rdbConfigSave opens r.2 fs rdbConfigFile).2) else (r.2, fs)

/-- The configuration that the program goes on with, the files, and the file given to `kvs_rdb_load`
if it is called. The writes at exit, by `SAVE` and by the thread that saves go to the path of the
configuration. -/
structure Startup where
  settings : RdbSettings
  files : Files
  loaded : Option CString

def kvsRdbInit (opens : Bool) (cfg : RdbSettings) (fs : Files) : Startup :=
  let r := rdbConfigInit opens cfg fs
  if !r.1.rdbEnabled then ⟨r.1, r.2, none⟩
  else if (r.2 r.1.rdbFile).isSome then ⟨r.1, r.2, some r.1.rdbFile⟩
  else ⟨r.1, r.2, none⟩

def kvsRdbSetPath (cfg : RdbSettings) (path : Option CString) : ℤ × RdbSettings :=
  rdbConfigSetRdbFile cfg path

/-- `main` with a path as its second argument, up to the end of `init_kvengine`. -/
def mainStart (opens : Bool) (cfg : RdbSettings) (fs : Files) (path : CString) : Startup :=
  kvsRdbInit opens (kvsRdbSetPath cfg (some path)).2 fs

/-- Loading and all writes use the path. -/
def Startup.Uses (s : Startup) (path : CString) : Prop :=
  s.settings.rdbFile = path ∧ ∀ file, s.loaded = some file → file = path

/-- The value of the last entry of a key, as the reader takes the lines. -/
def lastValue (key bs : List UInt8) : Option (List UInt8) :=
  ((configEntries bs).filter (·.1 = key)).getLast?.map Prod.snd

/-- The last entry of its key is what a field holds in the end. -/
theorem SetBy.foldl {field : RdbSettings → CString} {key : List UInt8} (h : SetBy field key)
    (es : List (List UInt8 × List UInt8)) : field (es.foldl applyEntry cfg) =
      ((es.filter (·.1 = key)).getLast?).elim (field cfg) fun e => copyPath (.read e.2) := by
  induction es using List.reverseRecOn with
  | nil => rfl
  | append_singleton es e ih =>
    rw [List.foldl_append, List.foldl_cons, List.foldl_nil, h, List.filter_append]
    by_cases he : e.1 = key
    · rw [if_pos he, List.filter_cons_of_pos (by simpa using he), List.filter_nil,
        List.getLast?_append_of_ne_nil _ (List.cons_ne_nil _ _)]
      rfl
    · rw [if_neg he, List.filter_cons_of_neg (by simpa using he), List.filter_nil, List.append_nil, ih]

/-- The value of a line fits the field. -/
theorem copyPath_lastValue {key : List UInt8} (h : lastValue key bs = some value) :
    copyPath (.read value) = .read value := by
  obtain ⟨e, he, rfl⟩ := Option.map_eq_some_iff.mp h
  obtain ⟨line, hline, hentry⟩ := List.mem_filterMap.mp (List.mem_filter.mp (List.mem_of_getLast? he)).1
  have hlt := length_configEntry_lt hentry
  have hle := (LineReader.length_of_mem_reads hline).1
  rw [maxConfigLine] at hle
  apply copyPath_eq
  have hread := length_read_le e.2
  rw [maxPathLen]
  omega

/-- The path of the configuration that a file leaves. -/
theorem rdbConfigLoad_rdbFile : (rdbConfigLoad cfg (some bs)).2.rdbFile =
    (lastValue rdbFileKey bs).elim cfg.rdbFile fun value => .read value := by
  rw [rdbConfigLoad, rdbFile_setBy.foldl]
  cases he : ((configEntries bs).filter (·.1 = rdbFileKey)).getLast? with
  | none => simp only [lastValue, he, Option.elim_none, Option.map_none]
  | some e =>
    have hv : lastValue rdbFileKey bs = some e.2 := by rw [lastValue, he, Option.map_some]
    rw [hv, Option.elim_some, Option.elim_some, copyPath_lastValue hv]

theorem rdbConfigInit_settings :
    (rdbConfigInit opens cfg fs).1 = (rdbConfigLoad cfg (fs rdbConfigFile)).2 := by
  simp only [rdbConfigInit]
  split_ifs
  · rfl
  · rfl

theorem kvsRdbInit_settings :
    (kvsRdbInit opens cfg fs).settings = (rdbConfigLoad cfg (fs rdbConfigFile)).2 := by
  simp only [kvsRdbInit]
  split_ifs
  · exact rdbConfigInit_settings
  · exact rdbConfigInit_settings
  · exact rdbConfigInit_settings

/-- What is loaded is the file of the configuration. -/
theorem kvsRdbInit_loaded {file : CString} (h : (kvsRdbInit opens cfg fs).loaded = some file) :
    file = (kvsRdbInit opens cfg fs).settings.rdbFile := by
  simp only [kvsRdbInit] at h ⊢
  split_ifs at h ⊢
  cases h
  rfl

/-- The path of the command line is used exactly when there is no configuration file, or none of
its lines sets the path, or the last that does sets this path. -/
theorem mainStart_uses_iff (opens : Bool) (cfg : RdbSettings) (fs : Files)
    (hlen : path.length < maxPathLen) :
    (mainStart opens cfg fs path).Uses path ↔ ∀ bs, fs rdbConfigFile = some bs →
      ∀ value, lastValue rdbFileKey bs = some value → CString.read value = path := by
  have hset : (kvsRdbSetPath cfg (some path)).2.rdbFile = path := copyPath_eq hlen
  have huses : (mainStart opens cfg fs path).Uses path ↔
      (mainStart opens cfg fs path).settings.rdbFile = path := by
    refine and_iff_left_of_imp fun h file hfile => ?_
    rw [← h]
    exact kvsRdbInit_loaded hfile
  rw [huses, mainStart, kvsRdbInit_settings]
  cases hfile : fs rdbConfigFile with
  | none => simp [rdbConfigLoad, hset]
  | some bs =>
    rw [rdbConfigLoad_rdbFile, hset]
    cases hv : lastValue rdbFileKey bs <;> simp [hv]

/-- A path where there is no configuration file. -/
theorem mainStart_uses_iff_first : (mainStart true defaultSettings (fun _ => none)
    (.read (text ['d', '.', 'r', 'd', 'b']))).Uses (.read (text ['d', '.', 'r', 'd', 'b'])) :=
  (mainStart_uses_iff true defaultSettings (fun _ => none) (by decide)).mpr fun _ h => by cases h

/-- The line that a first start without a path writes keeps the path of a later one from use. -/
theorem mainStart_ignores_path :
    ¬ (mainStart true defaultSettings
      (Function.update (fun _ => none) rdbConfigFile
        (some (entryLine rdbFileKey defaultSettings.rdbFile.bytes ++ [10])))
      (.read (text ['d', '.', 'r', 'd', 'b']))).Uses (.read (text ['d', '.', 'r', 'd', 'b'])) := by
  rintro ⟨hfile, -⟩
  have hentries : configEntries (entryLine rdbFileKey defaultSettings.rdbFile.bytes ++ [10]) =
      [(rdbFileKey, defaultSettings.rdbFile.bytes)] :=
    configEntries_ink (by decide) (by decide) (by decide)
  rw [mainStart, kvsRdbInit_settings, Function.update_self, rdbConfigLoad_rdbFile, lastValue,
    hentries] at hfile
  exact absurd hfile (by decide)

end KvStore
