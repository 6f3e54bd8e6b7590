import KvStore.Lifetime.Steps

/-! Every run of the program, through any number of ends and new starts, is a run of maps in memory
that are lost and a snapshot that is taken up again. -/
namespace KvStore
open KeyValue Fuel Checkpoint

variable {S : Type*} [Comparisons S] [Zero S] {P : Scores S} {path : Option CString}
  {conf : List UInt8} {p p' : Process S} {M : Memory EngineMaps} {V D : EngineMaps}
  {A H : Finset CString} {w : StartIO S} {fs fs' : Files} {n : ℕ}

/-- The configuration of a program that was started so. -/
def startConfig (path : Option CString) (conf : List UInt8) : ServerConfig :=
  ⟨(startSettings path conf).toRdbConfig, (startSettings path conf).rdbFile⟩

/-- The program holds the maps in memory, and its file those of the snapshot. -/
structure Process.Follows (path : Option CString) (conf : List UInt8) (A H : Finset CString)
    (p : Process S) (M : Memory EngineMaps) : Prop where
  settings : p.settings = startSettings path conf
  configured : p.store.files rdbConfigFile = some conf
  hold : p.store.toEngines.Hold M.volatile
  volatile : M.volatile.Within A H
  durable : M.durable.Within A H
  snapshot : Restores (startConfig path conf).rdb (p.store.files (startConfig path conf).rdbFile)
    M.durable

omit [Comparisons S] [Zero S] in
theorem Process.Follows.config (h : p.Follows path conf A H M) :
    p.config = startConfig path conf := by
  rw [Process.config, h.settings]
  rfl

section Files

/-- The name of a backup ends with the letters of its type. -/
theorem backupFile_ne_config (cfg : RdbConfig) (stamp : CString) :
    backupFile cfg stamp ≠ rdbConfigFile := by
  intro he
  have hbytes := congrArg CString.bytes he
  have hread : ∀ l : List UInt8, 0 ∉ l → (CString.read l).bytes = l := fun l hl =>
    congrArg CString.bytes (CString.read_bytes ⟨l, hl⟩)
  have hname : 0 ∉ cfg.backupDir.bytes ++
      (text ['/', 'k', 'v', 's', '_', 'b', 'a', 'c', 'k', 'u', 'p', '_'] ++
        (stamp.bytes ++ text ['.', 'r', 'd', 'b'])) := by
    have hdir := cfg.backupDir.nonzero
    have hstamp := stamp.nonzero
    simp only [List.mem_append, not_or]
    exact ⟨hdir, by decide, hstamp, by decide⟩
  rw [backupFile, rdbConfigFile, hread _ hname, hread _ (by decide)] at hbytes
  have hlast := congrArg List.getLast? hbytes
  have hne : text ['.', 'r', 'd', 'b'] ≠ [] := by decide
  rw [List.getLast?_append_of_ne_nil _ (by simp [text]),
    List.getLast?_append_of_ne_nil _ (by simp [text]),
    List.getLast?_append_of_ne_nil _ hne] at hlast
  revert hlast
  decide

/-- A save writes the snapshot and a backup, no other file. -/
theorem kvsRdbSave_config {cfg : RdbConfig} {io : SaveIO} {e : Engines} {fs' : Files}
    {file : CString} {c : ℤ} (hfile : file ≠ rdbConfigFile)
    (h : kvsRdbSave cfg io e fs file = some (c, fs')) : fs' rdbConfigFile = fs rdbConfigFile := by
  have hbackup : (rdbCreateBackup cfg io fs file).2 rdbConfigFile = fs rdbConfigFile := by
    have hne := (backupFile_ne_config cfg io.stamp).symm
    simp only [rdbCreateBackup]
    split_ifs
    · rfl
    · rfl
    · rfl
    · rfl
    · simp only [Function.update_of_ne hne]
  have hbacked : backedUp cfg io fs file rdbConfigFile = fs rdbConfigFile := by
    rw [backedUp]
    split_ifs
    · exact hbackup
    · rfl
  rw [kvsRdbSave] at h
  split_ifs at h with hen hcond hopen hopen
  · cases h
    rfl
  · cases h
    exact hbackup
  · obtain ⟨array, -, h⟩ := Option.bind_eq_some_iff.mp h
    obtain ⟨tree, -, h⟩ := Option.bind_eq_some_iff.mp h
    obtain ⟨hash, -, h⟩ := Option.bind_eq_some_iff.mp h
    cases h
    rw [Function.update_of_ne hfile.symm]
    exact hbackup
  · cases h
    rfl
  · obtain ⟨array, -, h⟩ := Option.bind_eq_some_iff.mp h
    obtain ⟨tree, -, h⟩ := Option.bind_eq_some_iff.mp h
    obtain ⟨hash, -, h⟩ := Option.bind_eq_some_iff.mp h
    cases h
    rw [Function.update_of_ne hfile.symm]

end Files

section Start

variable {opens : Bool} {cfg : RdbSettings}

theorem kvsRdbInit_files : (kvsRdbInit opens cfg fs).files = (rdbConfigInit opens cfg fs).2 := by
  simp only [kvsRdbInit]
  split_ifs
  · rfl
  · rfl
  · rfl

/-- A start that finds `fs` goes on with this configuration, and has it in a file then. -/
structure Configures (opens : Bool) (path : Option CString) (conf : List UInt8) (fs fs' : Files) :
    Prop where
  settings : (kvsRdbInit opens (launchSettings path) fs).settings = startSettings path conf
  files : (kvsRdbInit opens (launchSettings path) fs).files = fs'
  configured : fs' rdbConfigFile = some conf

theorem Configures.there (hconf : fs rdbConfigFile = some conf) :
    Configures opens path conf fs fs := by
  refine ⟨?_, ?_, hconf⟩
  · rw [kvsRdbInit_settings, hconf]
    rfl
  · rw [kvsRdbInit_files]
    simp [rdbConfigInit, hconf, rdbConfigLoad]

/-- What a start with this path writes where there is no configuration. -/
def writtenConf (path : Option CString) : List UInt8 :=
  (configLines (launchSettings path)).flatMap fun l => l ++ [10]

/-- A path that comes back from the file. -/
def Returning (path : Option CString) : Prop := ∀ s, path = some s → PlainPath s ∧ s.length ≤ 244

theorem Returning.roundTrips (h : Returning path) : RoundTrips (launchSettings path) := by
  have hdir : PlainPath defaultSettings.backupDir := ⟨by decide, by decide, by decide, by decide⟩
  have hshort : defaultSettings.backupDir.length ≤ 242 := by decide
  cases path with
  | none =>
    exact roundTrips_of_short ⟨by decide, by decide, by decide, by decide⟩ hdir (by decide) hshort
  | some s =>
    obtain ⟨hplain, hlen⟩ := h s rfl
    have hset : copyPath s = s := copyPath_eq (hlen.trans_lt (by decide))
    refine roundTrips_of_short ?_ hdir ?_ hshort
    · change PlainPath (copyPath s)
      rwa [hset]
    · change (copyPath s).length ≤ 244
      rwa [hset]

/-- The written configuration is that of the start which writes it and of all later ones. -/
theorem Configures.written (hnone : fs rdbConfigFile = none) (h : Returning path) :
    Configures true path (writtenConf path) fs
      (Function.update fs rdbConfigFile (some (writtenConf path))) := by
  have htrip := (h.roundTrips (launchSettings path) fs rdbConfigFile).2
  rw [rdbConfigSave_content] at htrip
  refine ⟨?_, ?_, Function.update_self ..⟩
  · rw [kvsRdbInit_settings, hnone, startSettings, writtenConf, htrip]
    rfl
  · rw [kvsRdbInit_files]
    simp [rdbConfigInit, hnone, rdbConfigLoad, rdbConfigSave, writtenConf]

/-- Without a load there is nothing that it could give. -/
theorem kvsRdbInit_unloaded (lio : LoadIO) (h : (kvsRdbInit opens cfg fs).loaded = none) :
    (kvsRdbLoad (kvsRdbInit opens cfg fs).settings.toRdbConfig lio
      ((kvsRdbInit opens cfg fs).files (kvsRdbInit opens cfg fs).settings.rdbFile)).calls = [] := by
  simp only [kvsRdbInit] at h ⊢
  split_ifs at h ⊢ with hen hfile
  · have hoff : (rdbConfigInit opens cfg fs).1.rdbEnabled = false := by simpa using hen
    simp [kvsRdbLoad, hoff]
  · have hnone := Option.not_isSome_iff_eq_none.mp hfile
    dsimp only
    rw [hnone]
    exact kvsRdbLoad_none

omit [Comparisons S] in
/-- A start reads the snapshot of its configuration and changes no other file than that of the
configuration. -/
theorem Process.start_eq {w : StartIO S} (hconf : Configures w.configOpens path conf fs fs') (n : ℕ) :
    Process.start n w path fs =
      (passRecords n w.engines 0 ⟨kvsArrayCreate, kvsRbtreeCreate w.tree w.nil, kvsHashCreate w.slots⟩
        (kvsRdbLoad (startConfig path conf).rdb w.load
          (fs' (startConfig path conf).rdbFile)).calls).bind fun e =>
      some ⟨startSettings path conf, ⟨e, kvsSkiptableCreate w.nodes w.header, fs'⟩⟩ := by
  obtain ⟨hsettings, hfiles, -⟩ := hconf
  rw [Process.start, Process.initKvengine]
  cases hloaded : (kvsRdbInit w.configOpens (launchSettings path) fs).loaded with
  | none =>
    have hnil := kvsRdbInit_unloaded w.load hloaded
    rw [hsettings, hfiles] at hnil ⊢
    have hcalls : (kvsRdbLoad (startConfig path conf).rdb w.load
      (fs' (startConfig path conf).rdbFile)).calls = [] := hnil
    rw [hcalls]
  | some file =>
    have hfile := kvsRdbInit_loaded hloaded
    rw [hsettings] at hfile ⊢
    rw [hfiles, hfile]
    rfl

omit [Comparisons S] [Zero S] in
/-- The memory that a start is granted. -/
theorem StartIO.Grants.supplies (hw : w.Grants) : ∃ block : ℕ → Ptr, Supplies w.engines block ∧
    ∀ i, (kvsRbtreeCreate w.tree w.nil).Free (block i) := by
  obtain ⟨hnil, -, -, harray, hhash, block, hinj, hnode⟩ := hw
  refine ⟨block, ⟨harray, hhash, fun i => (hnode i).1, hinj⟩, fun i => ?_⟩
  rw [(Rbtree.Holds.create (M := w.tree) hnil).repr.free_iff]
  obtain ⟨-, hb, hb'⟩ := hnode i
  simpa [kvsRbtreeCreate] using ⟨hb, hb'⟩

omit [Comparisons S] in
/-- A start comes back with the maps of the snapshot. -/
theorem Process.start_returns (hconf : Configures w.configOpens path conf fs fs') (hw : w.Grants)
    (hD : Restores (startConfig path conf).rdb (fs' (startConfig path conf).rdbFile) D) :
    ∃ p : Process S, Returns (fun n => Process.start n w path fs) p ∧
      p.settings = startSettings path conf ∧ p.store.files = fs' ∧ p.store.toEngines.Hold D := by
  obtain ⟨rs, rfl, hrs, hcount, hcalls⟩ := hD
  obtain ⟨block, hsupply, hfree⟩ := hw.supplies
  have hfresh : Engines.Hold ⟨kvsArrayCreate, kvsRbtreeCreate w.tree w.nil, kvsHashCreate w.slots⟩
      .empty := by
    refine ⟨.create, .create hw.nil, ?_⟩
    rw [hw.slots]
    exact .create
  obtain ⟨e, hpass, he⟩ := hfresh.pass (i := 0) hsupply (fun j _ => hfree j) hrs
    (by simpa [kvsArrayCreate] using hcount)
  refine ⟨⟨startSettings path conf, ⟨e, kvsSkiptableCreate w.nodes w.header, fs'⟩⟩, ?_, rfl, rfl, ?_⟩
  · have hbind := hpass.bind (g := fun e _ => some (⟨startSettings path conf,
      ⟨e, kvsSkiptableCreate w.nodes w.header, fs'⟩⟩ : Process S)) (.some _)
    refine hbind.congr fun n => ?_
    rw [Process.start_eq hconf, hcalls w.load hw.room]
  · have hmaps : (fun x k => (EngineMaps.empty x k).or (storedMaps rs x k)) = storedMaps rs := by
      funext x k
      exact Option.none_or
    rwa [hmaps] at he

end Start

section Steps

variable {r : Option (List UInt8)} {log : List (LifeEvent × Option (List UInt8))}

theorem SavedTo.within {cfg : ServerConfig} {io : SaveIO} {D' : EngineMaps} {saved : Bool}
    (h : SavedTo cfg io V D D' saved) (hV : V.Within A H) (hD : D.Within A H) : D'.Within A H := by
  cases h with
  | off => exact hD
  | unopened => exact hD
  | emptied => exact .empty
  | checked => exact .empty
  | plain _ _ _ h => exact h.within hV

omit [Comparisons S] [Zero S] in
/-- A save of the program, whoever asks for it. -/
theorem Process.Follows.save {c : ℤ} {fs' : Files} {io : SaveIO} (h : p.Follows path conf A H M)
    (hb : Budget A H) (hfile : (startConfig path conf).rdbFile ≠ rdbConfigFile)
    (hsave : kvsRdbSave (startConfig path conf).rdb io p.store.toEngines p.store.files
      (startConfig path conf).rdbFile = some (c, fs')) :
    ∃ D', SavedTo (startConfig path conf) io M.volatile M.durable D' (decide (0 ≤ c)) ∧
      Process.Follows path conf A H { p with store := { p.store with files := fs' } }
        ⟨M.volatile, D'⟩ := by
  obtain ⟨c', fs'', D', hsave', hsaved, hrestores⟩ :=
    h.hold.save h.volatile hb io h.snapshot
  obtain ⟨rfl, rfl⟩ : c' = c ∧ fs'' = fs' := by simpa using hsave'.symm.trans hsave
  refine ⟨D', hsaved, h.settings, ?_, h.hold, h.volatile, hsaved.within h.volatile h.durable,
    hrestores⟩
  exact (kvsRdbSave_config hfile hsave).trans h.configured

/-- The mutex of the array plays no part in a save. -/
theorem kvsRdbSave_lock {cfg : RdbConfig} {io : SaveIO} {e : Engines} {file : CString} (b : Bool) :
    kvsRdbSave cfg io { e with array := { e.array with locked := b } } fs file =
      kvsRdbSave cfg io e fs file := rfl

/-- Every step is one of the specification. -/
theorem Process.Follows.step {ev : LifeEvent} (h : p.Follows path conf A H M) (hb : Budget A H)
    (hfile : (startConfig path conf).rdbFile ≠ rdbConfigFile)
    (hu : ∀ r, ev = .call r → r.Uses A H) (hs : Lives P path p ev r p') :
    ∃ M', LifeSpec (startConfig path conf) M ev r M' ∧ p'.Follows path conf A H M' := by
  cases hs with
  | @query q reply s' hserve =>
    obtain ⟨rfl, hold⟩ := hserve.hold h.hold h.volatile hb
    have hfiles := hserve.files
    refine ⟨_, .call M q, h.settings, ?_, hold,
      h.volatile.nextMaps hserve.1 (hu q rfl), h.durable, ?_⟩
    · exact (congrFun hfiles _).trans h.configured
    · dsimp only
      rw [hfiles]
      exact h.snapshot
  | @request seqId flags payload io reply s' hsave =>
    rw [h.config] at hsave
    obtain ⟨c, fs', hc, rfl, rfl⟩ := hsave.spec
    obtain ⟨D', hsaved, h'⟩ := h.save hb hfile hc
    refine ⟨⟨M.volatile, D'⟩, .save ⟨_, hsaved, ?_⟩, h'⟩
    have htext : (if c < 0 then saveErrorText else savedText) =
        if decide (0 ≤ c) then savedText else saveErrorText := by
      by_cases hneg : c < 0
      · rw [if_pos hneg, if_neg (by simpa using hneg)]
      · rw [if_neg hneg, if_pos (by simpa using hneg)]
    rw [htext]
    rfl
  | @thread _ io hauto =>
    rw [checkAutoSave] at hauto
    have hrdb : p.settings.toRdbConfig = (startConfig path conf).rdb := by
      rw [h.settings]
      rfl
    cases hen : p.settings.rdbEnabled with
    | false =>
      rw [hen] at hauto
      cases hauto
      refine ⟨⟨M.volatile, M.durable⟩, .save ⟨true, .off ?_, rfl⟩, h⟩
      rw [← hrdb]
      exact hen
    | true =>
      have hlock : p.store.array.lock = some { p.store.array with locked := true } := by
        simp [KvsArray.lock, h.hold.array.unlocked]
      rw [hen, hlock] at hauto
      simp only [Bool.not_true, Bool.false_eq_true, if_false, Option.bind_some] at hauto
      obtain ⟨⟨c, fs'⟩, hc, hauto⟩ := Option.bind_eq_some_iff.mp hauto
      rw [kvsRdbSave_lock, h.settings] at hc
      obtain ⟨D', hsaved, h'⟩ := h.save hb hfile hc
      have hp : p' = { p with store := { p.store with files := fs' } } := by
        have hfree := h.hold.array.unlocked
        have hunlock : ({ p.store.array with locked := true } : KvsArray).unlock = p.store.array := by
          rw [KvsArray.unlock]
          cases harray : p.store.array
          rw [harray] at hfree
          cases hfree
          rfl
        rw [← Option.some.inj hauto, hunlock]
      exact ⟨⟨M.volatile, D'⟩, .save ⟨_, hsaved, rfl⟩, hp ▸ h'⟩
  | @restart _ w hw hret =>
    obtain ⟨p₁, hret', hsettings, hfiles, hold⟩ := Process.start_returns (.there h.configured) hw
      h.snapshot
    obtain rfl := hret.unique hret'
    refine ⟨_, .restart M, hsettings, ?_, hold, h.durable, h.durable, ?_⟩
    · rw [hfiles]
      exact h.configured
    · rw [hfiles]
      exact h.snapshot

end Steps

end KvStore
