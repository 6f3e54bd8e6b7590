import KvStore.Lib.Guarded
import KvStore.Rdb.Failure

/-! The backups of a row of saves. A backup has its name from the second it is made in, so that a
save may empty the backup that the one before it has made. -/
namespace KvStore

/-- `struct tm`, as far as the name of a backup shows it. -/
structure Tm where
  tmYear : ℕ
  tmMon : ℕ
  tmMday : ℕ
  tmHour : ℕ
  tmMin : ℕ
  tmSec : ℕ

/-- The digits of a number behind zeros that fill up a width, as `"%0*d"` prints it. -/
def padded (width n : ℕ) : List UInt8 :=
  let digits := text (Nat.toDigits 10 n)
  List.replicate (width - digits.length) 48 ++ digits

/-- `"%04d%02d%02d_%02d%02d%02d"` of a local time. -/
def Tm.stamp (tm : Tm) : CString :=
  .read (padded 4 (tm.tmYear + 1900) ++ (padded 2 (tm.tmMon + 1) ++ (padded 2 tm.tmMday ++
    (text ['_'] ++ (padded 2 tm.tmHour ++ (padded 2 tm.tmMin ++ padded 2 tm.tmSec))))))

theorem slash_not_mem_padded (width n : ℕ) : 47 ∉ padded width n := by
  rw [padded, List.mem_append, not_or]
  constructor
  · intro h
    cases List.eq_of_mem_replicate h
  · rw [text, List.mem_map]
    rintro ⟨c, hc, he⟩
    have hdigit := Nat.isDigit_of_mem_toDigits (by decide) le_rfl hc
    rw [Char.isDigit, Bool.and_eq_true, decide_eq_true_eq, decide_eq_true_eq] at hdigit
    have hval := congrArg UInt8.toNat he
    rw [UInt8.toNat_ofNat'] at hval
    have hlo : 48 ≤ c.toNat := hdigit.1
    have hhi : c.toNat ≤ 57 := hdigit.2
    rw [Nat.mod_eq_of_lt (by omega)] at hval
    exact absurd hval (by change c.toNat ≠ 47; omega)

theorem Tm.slash_not_mem_stamp (tm : Tm) : 47 ∉ tm.stamp.bytes := by
  intro h
  have hmem := (List.takeWhile_prefix _).subset h
  simp only [List.mem_append, slash_not_mem_padded, false_or, or_false] at hmem
  exact absurd hmem (by decide)

/-- The path of a file that stands in the directory of the backups. -/
def InBackupDir (cfg : RdbConfig) (path : CString) : Prop :=
  ∃ name : List UInt8, 47 ∉ name ∧ path.bytes = cfg.backupDir.bytes ++ 47 :: name

/-- No zero cuts the name off. -/
theorem backupFile_bytes (cfg : RdbConfig) (stamp : CString) :
    (backupFile cfg stamp).bytes = cfg.backupDir.bytes ++
      (text ['/', 'k', 'v', 's', '_', 'b', 'a', 'c', 'k', 'u', 'p', '_'] ++
        (stamp.bytes ++ text ['.', 'r', 'd', 'b'])) := by
  apply List.takeWhile_eq_self_iff.mpr
  intro b hb
  rw [decide_eq_true_eq]
  rintro rfl
  simp only [List.mem_append] at hb
  obtain hb | hb | hb | hb := hb
  · exact cfg.backupDir.nonzero hb
  · exact absurd hb (by decide)
  · exact stamp.nonzero hb
  · exact absurd hb (by decide)

theorem backupFile_injective (cfg : RdbConfig) : Function.Injective (backupFile cfg) := by
  intro stamp stamp' he
  apply CString.ext
  have hbytes := congrArg CString.bytes he
  rw [backupFile_bytes, backupFile_bytes] at hbytes
  exact List.append_cancel_right (List.append_cancel_left (List.append_cancel_left hbytes))

theorem inBackupDir_backupFile (cfg : RdbConfig) (tm : Tm) :
    InBackupDir cfg (backupFile cfg tm.stamp) := by
  refine ⟨text ['k', 'v', 's', '_', 'b', 'a', 'c', 'k', 'u', 'p', '_'] ++
    (tm.stamp.bytes ++ text ['.', 'r', 'd', 'b']), ?_, backupFile_bytes cfg tm.stamp⟩
  rw [List.mem_append, List.mem_append, not_or, not_or]
  exact ⟨by decide, tm.slash_not_mem_stamp, by decide⟩

/-- A call of `kvs_rdb_save` whose file operations succeed. Its backup has its name from the local
time at `time`. -/
structure SaveCall (localtime : ℕ → Tm) where
  time : ℕ
  io : SaveIO
  engines : Engines
  time_le : time ≤ io.now
  opens : io.opens = true
  backupOpens : io.backupOpens = true
  stamp : io.stamp = (localtime time).stamp

/-- The files, and the contents that saves have overwritten, the last one first. -/
structure Snapshots where
  files : Files
  overwritten : List (List UInt8)

namespace Snapshots

variable {localtime : ℕ → Tm}

def save (cfg : RdbConfig) (filename : CString) (s : Snapshots) (c : SaveCall localtime) :
    Option (ℤ × Snapshots) :=
  (kvsRdbSave cfg c.io c.engines s.files filename).map fun r =>
    (r.1, ⟨r.2, if cfg.rdbEnabled then (s.files filename).toList ++ s.overwritten
      else s.overwritten⟩)

/-- Every content that was overwritten stands in some file of the backup directory. -/
def Kept (cfg : RdbConfig) (s : Snapshots) : Prop :=
  ∀ old ∈ s.overwritten, ∃ path, InBackupDir cfg path ∧ s.files path = some old

/-- The path of the backup fits its buffer. -/
def Named (cfg : RdbConfig) (stamp : CString) : Prop :=
  cfg.backupDir.length < maxPathLen - 50 ∧ (backupFile cfg stamp).length < maxPathLen

/-- The content stands in a file of the backup directory that the save does not write. -/
def Elsewhere (cfg : RdbConfig) (filename stamp : CString) (fs : Files) (old : List UInt8) : Prop :=
  ∃ path, InBackupDir cfg path ∧ path ≠ filename ∧
    (Named cfg stamp → path ≠ backupFile cfg stamp) ∧ fs path = some old

/-- The save makes a backup of the file under another name, or one is there already, and takes the
last copy of no other content. -/
def Spared (cfg : RdbConfig) (filename stamp : CString) (s : Snapshots) : Prop :=
  cfg.rdbEnabled = true → ∀ current, s.files filename = some current →
    (Named cfg stamp ∧ backupFile cfg stamp ≠ filename ∨
      Elsewhere cfg filename stamp s.files current) ∧
    ∀ old ∈ s.overwritten, old ≠ current → Elsewhere cfg filename stamp s.files old

variable {cfg : RdbConfig} {filename path : CString} {fs : Files} {s s' : Snapshots}
  {c : SaveCall localtime} {current : List UInt8}

theorem backedUp_backup (hbackup : cfg.rdbBackup = true) (c : SaveCall localtime)
    (hname : Named cfg c.io.stamp) (hne : backupFile cfg c.io.stamp ≠ filename)
    (hcurrent : fs filename = some current) :
    backedUp cfg c.io fs filename (backupFile cfg c.io.stamp) = some current := by
  obtain ⟨hdir, hlen⟩ := hname
  rw [backedUp, if_pos ⟨hbackup, by rw [hcurrent]; rfl⟩, rdbCreateBackup]
  simp only [hbackup, c.backupOpens, hdir.not_ge, hlen.not_ge, Bool.not_true, Bool.false_eq_true,
    if_false, Function.update_self, Function.update_of_ne hne.symm, hcurrent]

theorem backedUp_other {io : SaveIO} (hne : Named cfg io.stamp → path ≠ backupFile cfg io.stamp) :
    backedUp cfg io fs filename path = fs path := by
  unfold backedUp rdbCreateBackup
  split_ifs with hb h₁ h₂ h₃ h₄
  · rfl
  · rfl
  · rfl
  · rfl
  · have hpath := hne ⟨not_le.mp h₂, not_le.mp h₃⟩
    dsimp only
    rw [Function.update_of_ne hpath, Function.update_of_ne hpath]
  · rfl

theorem backedUp_eq (hbackup : cfg.rdbBackup = true) (c : SaveCall localtime)
    (hname : Named cfg c.io.stamp) (hne : backupFile cfg c.io.stamp ≠ filename)
    (hcurrent : fs filename = some current) : backedUp cfg c.io fs filename =
      Function.update fs (backupFile cfg c.io.stamp) (some current) := by
  funext path
  by_cases he : path = backupFile cfg c.io.stamp
  · rw [he, backedUp_backup hbackup c hname hne hcurrent, Function.update_self]
  · rw [backedUp_other fun _ => he, Function.update_of_ne he]

/-- A save that is switched on replaces the file and nothing else behind the backup. -/
theorem save_cases {r : ℤ} (h : s.save cfg filename c = some (r, s')) :
    (cfg.rdbEnabled = false ∧ s' = s) ∨
    (cfg.rdbEnabled = true ∧ s'.overwritten = (s.files filename).toList ++ s.overwritten ∧ ∃ new,
      s'.files = Function.update (backedUp cfg c.io s.files filename) filename (some new)) := by
  obtain ⟨⟨code, fs'⟩, hsave, he⟩ := Option.map_eq_some_iff.mp h
  cases he
  cases hen : cfg.rdbEnabled with
  | false =>
    simp only [kvsRdbSave, hen, Bool.not_false, if_true, Option.some.injEq, Prod.mk.injEq] at hsave
    obtain ⟨-, rfl⟩ := hsave
    exact .inl ⟨rfl, rfl⟩
  | true =>
    obtain ⟨array, others, hsaves⟩ := saves_of_kvsRdbSave hen c.opens hsave
    rw [hsaves.kvsRdbSave hen c.opens] at hsave
    cases hsave
    exact .inr ⟨rfl, rfl, _, rfl⟩

/-- What stands elsewhere is there after the save. -/
theorem Elsewhere.keep {old new : List UInt8} {io : SaveIO}
    (h : Elsewhere cfg filename io.stamp fs old) :
    ∃ path, InBackupDir cfg path ∧
      Function.update (backedUp cfg io fs filename) filename (some new) path = some old := by
  obtain ⟨path, hdir, hfile, hname, hold⟩ := h
  refine ⟨path, hdir, ?_⟩
  rw [Function.update_of_ne hfile, backedUp_other hname, hold]

/-- A save that is spared the loss of a content keeps all that were overwritten. -/
theorem Kept.save (hbackup : cfg.rdbBackup = true) {r : ℤ} (hs : s.Kept cfg)
    (hsave : s.save cfg filename c = some (r, s')) (hspared : s.Spared cfg filename c.io.stamp) :
    s'.Kept cfg := by
  obtain ⟨-, rfl⟩ | ⟨hen, hover, new, hfiles⟩ := save_cases hsave
  · exact hs
  · intro old hold
    rw [hover] at hold
    rw [hfiles]
    cases hfile : s.files filename with
    | none =>
      rw [hfile] at hold
      obtain ⟨path, hdir, hpath⟩ := hs old hold
      have hne : path ≠ filename := by
        rintro rfl
        rw [hfile] at hpath
        cases hpath
      have hnone : ¬ (cfg.rdbBackup = true ∧ (s.files filename).isSome) := by simp [hfile]
      refine ⟨path, hdir, ?_⟩
      rw [Function.update_of_ne hne, backedUp, if_neg hnone, hpath]
    | some current =>
      obtain ⟨hcurrent, hothers⟩ := hspared hen current hfile
      by_cases he : old = current
      · subst he
        obtain ⟨hname, hne⟩ | helse := hcurrent
        · refine ⟨backupFile cfg c.io.stamp, ?_, ?_⟩
          · rw [c.stamp]
            exact inBackupDir_backupFile cfg _
          · rw [Function.update_of_ne hne, backedUp_backup hbackup c hname hne hfile]
        · exact helse.keep
      · rw [hfile] at hold
        obtain rfl | hold := List.mem_cons.mp hold
        · exact absurd rfl he
        · exact (hothers old hold he).keep

/-- Where the file itself is not among the backups, a save that keeps the contents is spared. -/
theorem Kept.spared (hdir : ¬ InBackupDir cfg filename) (hbackup : cfg.rdbBackup = true) {r : ℤ}
    (hsave : s.save cfg filename c = some (r, s')) (hs' : s'.Kept cfg) :
    s.Spared cfg filename c.io.stamp := by
  intro hen current hfile
  obtain ⟨hoff, -⟩ | ⟨-, hover, new, hfiles⟩ := save_cases hsave
  · rw [hen] at hoff
    cases hoff
  · have hplace : ∀ old ∈ current :: s.overwritten,
        (old = current ∧ Named cfg c.io.stamp ∧ backupFile cfg c.io.stamp ≠ filename) ∨
          Elsewhere cfg filename c.io.stamp s.files old := by
      intro old hold
      obtain ⟨path, hpath, hcopy⟩ := hs' old (by simpa [hover, hfile] using hold)
      have hne : path ≠ filename := fun he => hdir (he ▸ hpath)
      rw [hfiles, Function.update_of_ne hne] at hcopy
      by_cases hother : Named cfg c.io.stamp → path ≠ backupFile cfg c.io.stamp
      · rw [backedUp_other hother] at hcopy
        exact .inr ⟨path, hpath, hne, hother, hcopy⟩
      · obtain ⟨hname, hself⟩ := not_forall.mp hother
        obtain rfl := not_not.mp hself
        rw [backedUp_backup hbackup c hname hne hfile] at hcopy
        cases hcopy
        exact .inl ⟨rfl, hname, hne⟩
    refine ⟨?_, ?_⟩
    · obtain ⟨-, hmade⟩ | helse := hplace current List.mem_cons_self
      · exact .inl hmade
      · exact .inr helse
    · intro old hold hne
      obtain ⟨he, -⟩ | helse := hplace old (List.mem_cons_of_mem _ hold)
      · exact absurd he hne
      · exact helse

/-- No content is lost in a row of saves. -/
def KeepsAll (cfg : RdbConfig) (filename : CString) (fs : Files)
    (calls : List (SaveCall localtime)) : Prop :=
  Guarded.Whenever (save cfg filename) (fun _ _ _ s' => s'.Kept cfg) ⟨fs, []⟩ calls

/-- Every save of the row that comes back was spared. -/
def SparesAll (cfg : RdbConfig) (filename : CString) (fs : Files)
    (calls : List (SaveCall localtime)) : Prop :=
  Guarded.Whenever (save cfg filename) (fun s c _ _ => s.Spared cfg filename c.io.stamp) ⟨fs, []⟩ calls

theorem SparesAll.keepsAll (hbackup : cfg.rdbBackup = true) {calls : List (SaveCall localtime)}
    (h : SparesAll cfg filename fs calls) : KeepsAll cfg filename fs calls := by
  refine Guarded.Whenever.imp (J := Kept cfg) ?_ (fun old hold => absurd hold List.not_mem_nil) h
  intro s c r s' hs hsave hspared
  have hs' := hs.save hbackup hsave hspared
  exact ⟨hs', hs'⟩

theorem KeepsAll.sparesAll (hdir : ¬ InBackupDir cfg filename) (hbackup : cfg.rdbBackup = true)
    {calls : List (SaveCall localtime)} (h : KeepsAll cfg filename fs calls) :
    SparesAll cfg filename fs calls := by
  refine Guarded.Whenever.imp (J := fun _ => True) ?_ trivial h
  intro s c r s' _ hsave hs'
  exact ⟨hs'.spared hdir hbackup hsave, trivial⟩

/-- A row of saves whose steps are all spared loses no content, and where the file itself is not in
the backup directory no other row keeps them all. -/
theorem kvsRdbSave_keeps_overwritten (hbackup : cfg.rdbBackup = true) (filename : CString)
    (fs : Files) (calls : List (SaveCall localtime)) :
    (SparesAll cfg filename fs calls → KeepsAll cfg filename fs calls) ∧
    (¬ InBackupDir cfg filename → KeepsAll cfg filename fs calls →
      SparesAll cfg filename fs calls) :=
  ⟨SparesAll.keepsAll hbackup, fun hdir => KeepsAll.sparesAll hdir hbackup⟩

/-- The backup of every overwritten content stands under a stamp that no later save uses. -/
def Stamped (cfg : RdbConfig) (stamps : List CString) (s : Snapshots) : Prop :=
  ∀ old ∈ s.overwritten, ∃ tm : Tm, tm.stamp ∉ stamps ∧ s.files (backupFile cfg tm.stamp) = some old

theorem Stamped.elsewhere {stamps : List CString} (hdir : ¬ InBackupDir cfg filename)
    (hs : s.Stamped cfg stamps) (hstamp : c.io.stamp ∈ stamps) {old : List UInt8}
    (hold : old ∈ s.overwritten) : Elsewhere cfg filename c.io.stamp s.files old := by
  obtain ⟨tm, htm, hcopy⟩ := hs old hold
  refine ⟨backupFile cfg tm.stamp, inBackupDir_backupFile cfg tm, ?_, fun _ he => ?_, hcopy⟩
  · rintro rfl
    exact hdir (inBackupDir_backupFile cfg tm)
  · exact htm (backupFile_injective cfg he ▸ hstamp)

/-- A save under a stamp of its own adds its backup to the others. -/
theorem Stamped.save {stamps : List CString} (hbackup : cfg.rdbBackup = true)
    (hdir : ¬ InBackupDir cfg filename) (hname : Named cfg c.io.stamp) {r : ℤ}
    (hstamp : c.io.stamp ∉ stamps) (hs : s.Stamped cfg (c.io.stamp :: stamps))
    (hsave : s.save cfg filename c = some (r, s')) : s'.Stamped cfg stamps := by
  have hne : ∀ tm : Tm, backupFile cfg tm.stamp ≠ filename :=
    fun tm he => hdir (he ▸ inBackupDir_backupFile cfg tm)
  intro old hold
  obtain ⟨-, rfl⟩ | ⟨-, hover, new, hfiles⟩ := save_cases hsave
  · obtain ⟨tm, htm, hcopy⟩ := hs old hold
    exact ⟨tm, fun hmem => htm (List.mem_cons_of_mem _ hmem), hcopy⟩
  · rw [hover, List.mem_append, Option.mem_toList] at hold
    obtain hcurrent | hold := hold
    · refine ⟨localtime c.time, c.stamp ▸ hstamp, ?_⟩
      rw [hfiles, Function.update_of_ne (hne _), ← c.stamp,
        backedUp_backup hbackup c hname (c.stamp ▸ hne _) hcurrent]
    · obtain ⟨tm, htm, hcopy⟩ := hs old hold
      rw [List.mem_cons, not_or] at htm
      refine ⟨tm, htm.2, ?_⟩
      rw [hfiles, Function.update_of_ne (hne tm),
        backedUp_other fun _ he => htm.1 (backupFile_injective cfg he), hcopy]

/-- Saves in different seconds are spared, if their backups have names and the file itself is not
among them. -/
theorem sparesAll_of_nodup (hbackup : cfg.rdbBackup = true) (hdir : ¬ InBackupDir cfg filename)
    {calls : List (SaveCall localtime)} (hnames : ∀ c ∈ calls, Named cfg c.io.stamp)
    (hstamps : (calls.map fun c => c.io.stamp).Nodup) : SparesAll cfg filename fs calls := by
  have hall : ∀ s : Snapshots, s.Stamped cfg (calls.map fun c => c.io.stamp) →
      Guarded.Whenever (Snapshots.save cfg filename)
        (fun s c _ _ => s.Spared cfg filename c.io.stamp) s calls := by
    induction calls with
    | nil => exact fun _ _ => trivial
    | cons c calls ih =>
      intro s hs r s' hsave
      obtain ⟨hstamp, hrest⟩ := List.nodup_cons.mp hstamps
      have hname := hnames c List.mem_cons_self
      refine ⟨?_, ?_⟩
      · intro _ current _
        refine ⟨.inl ⟨hname, fun he => hdir ?_⟩, ?_⟩
        · rw [← he, c.stamp]
          exact inBackupDir_backupFile cfg _
        · exact fun old hold _ => hs.elsewhere hdir List.mem_cons_self hold
      · exact ih (fun d hd => hnames d (List.mem_cons_of_mem c hd)) hrest s'
          (hs.save hbackup hdir hname hstamp hsave)
  exact hall _ fun old hold => absurd hold List.not_mem_nil

theorem save_eq (hen : cfg.rdbEnabled = true) {array others : List RdbRecord}
    (hsaves : Saves c.engines array others) : s.save cfg filename c =
      some ((saveRecords cfg c.io array others).1,
        ⟨Function.update (backedUp cfg c.io s.files filename) filename
          (some (saveRecords cfg c.io array others).2),
          (s.files filename).toList ++ s.overwritten⟩) := by
  rw [save, hsaves.kvsRdbSave hen c.opens, hen]
  rfl

/-- The local time in the first day of 1970. -/
def firstDay (t : ℕ) : Tm := ⟨70, 0, 1, t / 3600, t / 60 % 60, t % 60⟩

/-- A save in that day. -/
def callAt (t : ℕ) (e : Engines) : SaveCall firstDay where
  time := t
  io := { readyIO with now := t, stamp := (firstDay t).stamp }
  engines := e
  time_le := le_rfl
  opens := rfl
  backupOpens := rfl
  stamp := rfl

/-- No checksum, and backups in the directory `b`. -/
def backupConfig : RdbConfig := ⟨true, false, false, true, .read [98]⟩

def snapshotName : CString := .read [97]

theorem snapshotName_outside : ¬ InBackupDir backupConfig snapshotName := by
  rintro ⟨name, -, he⟩
  cases he

/-- The snapshot of fresh engines, saved at `t`. -/
def freshSnapshot (t : ℕ) : List UInt8 :=
  (saveRecords backupConfig (callAt t freshEngines).io [] []).2

/-- The snapshot of engines with one key, saved at `t`. -/
def oneKeySnapshot (t : ℕ) : List UInt8 :=
  (saveRecords backupConfig (callAt t oneKey).io [⟨0, .read [97], .empty⟩] []).2

theorem freshSnapshot_ne (t : ℕ) : freshSnapshot t ≠ oneKeySnapshot t := by
  have hlen : (freshSnapshot t).length ≠ (oneKeySnapshot t).length := by
    rw [freshSnapshot, oneKeySnapshot, saveRecords_plain rfl, saveRecords_plain rfl,
      List.length_append, List.length_append, RdbHeader.length_bytes, RdbHeader.length_bytes]
    decide
  exact fun he => hlen (congrArg List.length he)

theorem freshEngines_saves : Saves freshEngines [] [] :=
  Engines.empty_iff.mp ⟨fun i hi => absurd hi (Nat.not_lt_zero i), .inr rfl, fun _ => rfl⟩

/-- What two saves leave, of the fresh engines and of the one key. -/
def twoSaved (t t' : ℕ) : Snapshots where
  files := Function.update (Function.update (Function.update (fun _ => none) snapshotName
    (some (freshSnapshot t))) (backupFile backupConfig (firstDay t').stamp)
    (some (freshSnapshot t))) snapshotName (some (oneKeySnapshot t'))
  overwritten := [freshSnapshot t]

theorem backupFile_ne (t : ℕ) : backupFile backupConfig (firstDay t).stamp ≠ snapshotName :=
  fun he => snapshotName_outside (he ▸ inBackupDir_backupFile backupConfig (firstDay t))

theorem freshEngines_saved (t : ℕ) :
    save backupConfig snapshotName ⟨fun _ => none, []⟩ (callAt t freshEngines) =
      some (0, ⟨Function.update (fun _ => none) snapshotName (some (freshSnapshot t)), []⟩) := by
  rw [save_eq rfl freshEngines_saves, freshSnapshot, saveRecords_plain rfl]
  rfl

theorem oneKey_saved_next (t t' : ℕ) (hname : Named backupConfig (firstDay t').stamp) :
    save backupConfig snapshotName
        ⟨Function.update (fun _ => none) snapshotName (some (freshSnapshot t)), []⟩
        (callAt t' oneKey) = some (0, twoSaved t t') := by
  rw [save_eq rfl oneKey_saves,
    backedUp_eq rfl (callAt t' oneKey) hname (backupFile_ne t') (Function.update_self ..),
    twoSaved, oneKeySnapshot, saveRecords_plain rfl]
  simp only [Function.update_self]
  rfl

/-- Three saves in three seconds keep the contents of the first and the second. -/
theorem kvsRdbSave_keeps_overwritten_seconds : KeepsAll backupConfig snapshotName (fun _ => none)
    [callAt 0 freshEngines, callAt 1 oneKey, callAt 2 oneKey] := by
  refine (kvsRdbSave_keeps_overwritten rfl snapshotName _ _).1 ?_
  refine sparesAll_of_nodup rfl snapshotName_outside ?_ (by decide)
  intro c hc
  simp only [List.mem_cons, List.not_mem_nil, or_false] at hc
  obtain rfl | rfl | rfl := hc
  · exact ⟨by decide, by decide⟩
  · exact ⟨by decide, by decide⟩
  · exact ⟨by decide, by decide⟩

/-- The third save of one second takes the backup of the first snapshot. -/
theorem kvsRdbSave_loses_overwritten : ¬ ∀ (localtime : ℕ → Tm) (cfg : RdbConfig)
    (filename : CString) (fs : Files) (calls : List (SaveCall localtime)), cfg.rdbBackup = true →
    calls.Pairwise (fun c d => c.io.now ≤ d.time) → KeepsAll cfg filename fs calls := by
  intro hall
  have hname : Named backupConfig (firstDay 0).stamp := ⟨by decide, by decide⟩
  have hkeeps := hall firstDay backupConfig snapshotName (fun _ => none)
    [callAt 0 freshEngines, callAt 0 oneKey, callAt 0 oneKey] rfl (by decide)
  have hspares := hkeeps.sparesAll snapshotName_outside rfl
  have hthird := ((hspares _ _ (freshEngines_saved 0)).2 _ _ (oneKey_saved_next 0 0 hname)).2 _ _
    (save_eq rfl oneKey_saves)
  have hcurrent : (twoSaved 0 0).files snapshotName = some (oneKeySnapshot 0) := by
    simp only [twoSaved, Function.update_self]
  obtain ⟨path, -, hfile, hbackup, hcopy⟩ :=
    (hthird.1 rfl _ hcurrent).2 (freshSnapshot 0) List.mem_cons_self (freshSnapshot_ne 0)
  have hother : path ≠ backupFile backupConfig (firstDay 0).stamp := hbackup hname
  simp only [twoSaved, Function.update_of_ne hfile, Function.update_of_ne hother] at hcopy
  cases hcopy

end Snapshots
end KvStore
