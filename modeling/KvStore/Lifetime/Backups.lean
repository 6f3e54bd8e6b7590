import KvStore.Lifetime.Durability
import KvStore.Rdb.Backup

/-! Going back to an earlier snapshot: the backups that a row of saves has made, `rdb_restore_from_backup`
on one of them, and the next start. -/
namespace KvStore
open KeyValue Fuel Snapshots

/-- What `rdb_restore_from_backup` meets: memory for the checksum, and whether the files open. -/
structure RestoreIO where
  room : Bool
  srcOpens : Bool
  dstOpens : Bool

/-- `rdb_restore_from_backup`. The snapshot is emptied before the backup is read. -/
def rdbRestoreFromBackup (cfg : ServerConfig) (io : RestoreIO) (fs : Files) :
    Option CString → ℤ × Files
  | none => (-1, fs)
  | some backupFile =>
    if rdbVerifyFileIntegrity cfg.rdb io.room (fs backupFile) ≠ 0 then (-1, fs)
    else if !io.srcOpens then (-1, fs)
    else if !io.dstOpens then (-1, fs)
    else
      let fs := Function.update fs cfg.rdbFile (some [])
      (0, Function.update fs cfg.rdbFile (fs backupFile))

section Restore

variable {cfg : ServerConfig} {io : RestoreIO} {fs : Files} {file : CString}

/-- A backup of intact content becomes the snapshot. -/
theorem rdbRestoreFromBackup_copies (hv : rdbVerifyFileIntegrity cfg.rdb io.room (fs file) = 0)
    (hsrc : io.srcOpens = true) (hdst : io.dstOpens = true) (hfile : file ≠ cfg.rdbFile) :
    rdbRestoreFromBackup cfg io fs (some file) =
      (0, Function.update fs cfg.rdbFile (fs file)) := by
  simp [rdbRestoreFromBackup, hv, hsrc, hdst, Function.update_of_ne hfile]

end Restore

section Row

variable {localtime : ℕ → Tm} {cfg : RdbConfig} {filename : CString} {s : Snapshots}
  {V : EngineMaps} {Vs : List EngineMaps} {f conf : List UInt8} {A H : Finset CString}
  {c : SaveCall localtime} {stamps : List CString}

/-- A file that is verified, and that a start takes the maps from. -/
structure Brings (cfg : RdbConfig) (V : EngineMaps) (f : List UInt8) : Prop where
  verified : ∀ room, rdbVerifyFileIntegrity cfg room (some f) = 0
  restores : ∃ D, SnapshotOf V D ∧ Restores cfg (some f) D

/-- A save without checksum writes such a file. -/
theorem Engines.Hold.saved (h : c.engines.Hold V) (hV : V.Within A H) (hb : Budget A H)
    (hen : cfg.rdbEnabled = true) (hcrc : cfg.rdbCrc64 = false) : ∃ f s',
    s.save cfg filename c = some (0, s') ∧ s'.files filename = some f ∧ Brings cfg V f ∧
      s'.overwritten = (s.files filename).toList ++ s.overwritten := by
  obtain ⟨array, others, hrec⟩ := h.recorded hV
  refine ⟨plainFile cfg c.io array others,
    ⟨Function.update (backedUp cfg c.io s.files filename) filename
      (some (plainFile cfg c.io array others)), (s.files filename).toList ++ s.overwritten⟩,
    ?_, Function.update_self .., ⟨?_, ?_⟩, rfl⟩
  · rw [save_eq hen hrec.saves, saveRecords_plain hcrc]
    rfl
  · exact fun room => plainFile_verified hcrc
  · exact ⟨_, hrec.snapshot, hrec.restores hb hen hcrc⟩

/-- Behind saves of these maps, the last ones first: the file brings the last, some overwritten
content each of the others, and the backups of these contents have other names than those of the
saves that come. -/
structure Backed (cfg : RdbConfig) (filename : CString) (conf : List UInt8) (stamps : List CString)
    (s : Snapshots) (Vs : List EngineMaps) : Prop where
  stamped : s.Stamped cfg stamps
  configured : s.files rdbConfigFile = some conf
  current : ∀ V ∈ Vs.head?, ∃ f, s.files filename = some f ∧ Brings cfg V f
  earlier : ∀ V ∈ Vs.tail, ∃ f ∈ s.overwritten, Brings cfg V f

/-- The next save. -/
theorem Backed.save (hs : Backed cfg filename conf (c.io.stamp :: stamps) s Vs)
    (hen : cfg.rdbEnabled = true) (hcrc : cfg.rdbCrc64 = false) (hbackup : cfg.rdbBackup = true)
    (hfile : filename ≠ rdbConfigFile) (hdir : ¬ InBackupDir cfg filename)
    (hname : Named cfg c.io.stamp) (hstamp : c.io.stamp ∉ stamps) (h : c.engines.Hold V)
    (hV : V.Within A H) (hb : Budget A H) : ∃ s', s.save cfg filename c = some (0, s') ∧
      Backed cfg filename conf stamps s' (V :: Vs) := by
  obtain ⟨f, s', hsave, hf, hbrings, hover⟩ := h.saved hV hb hen hcrc
  refine ⟨s', hsave, hs.stamped.save hbackup hdir hname hstamp hsave, ?_, ?_, ?_⟩
  · obtain ⟨⟨code, fs'⟩, hr, he⟩ := Option.map_eq_some_iff.mp hsave
    obtain ⟨-, rfl⟩ := Prod.mk.inj he
    exact (kvsRdbSave_config hfile hr).trans hs.configured
  · intro U hU
    cases hU
    exact ⟨f, hf, hbrings⟩
  · intro U hU
    rw [hover]
    -- the last content was overwritten now, the others before
    cases Vs with
    | nil => cases hU
    | cons W Vs =>
      obtain rfl | hU := List.mem_cons.mp hU
      · obtain ⟨g, hg, hW⟩ := hs.current U rfl
        exact ⟨g, by simp [hg], hW⟩
      · obtain ⟨g, hg, hW⟩ := hs.earlier U hU
        exact ⟨g, List.mem_append_right _ hg, hW⟩

/-- A save that comes back with this report. -/
def Saved (cfg : RdbConfig) (filename : CString) (s : Snapshots) (c : SaveCall localtime) (r : ℤ)
    (s' : Snapshots) : Prop := s.save cfg filename c = some (r, s')

/-- A save of engines with these maps, within the budget, whose backup has a name. -/
structure SavesMaps (cfg : RdbConfig) (A H : Finset CString) (x : SaveCall localtime × EngineMaps) :
    Prop where
  hold : x.1.engines.Hold x.2
  within : x.2.Within A H
  named : Named cfg x.1.io.stamp

/-- A row of saves, none of them in the second of another. -/
theorem Backed.run {row : List (SaveCall localtime × EngineMaps)}
    (hs : Backed cfg filename conf (row.map fun x => x.1.io.stamp) s Vs)
    (hen : cfg.rdbEnabled = true) (hcrc : cfg.rdbCrc64 = false) (hbackup : cfg.rdbBackup = true)
    (hfile : filename ≠ rdbConfigFile) (hdir : ¬ InBackupDir cfg filename)
    (hstamps : (row.map fun x => x.1.io.stamp).Nodup) (hrow : ∀ x ∈ row, SavesMaps cfg A H x)
    (hb : Budget A H) : ∃ s',
      Runs (Saved cfg filename) s (row.map fun x => (x.1, 0)) s' ∧
      Backed cfg filename conf [] s' ((row.map Prod.snd).reverse ++ Vs) := by
  induction row generalizing s Vs with
  | nil => exact ⟨s, .nil s, hs⟩
  | cons x row ih =>
    obtain ⟨hstamp, hrest⟩ := List.nodup_cons.mp hstamps
    have hx := hrow x List.mem_cons_self
    obtain ⟨s₁, hsave, hs₁⟩ := Backed.save hs hen hcrc hbackup hfile hdir hx.named hstamp hx.hold
      hx.within hb
    obtain ⟨s', hrun, hs'⟩ := ih hs₁ hrest fun y hy => hrow y (List.mem_cons_of_mem x hy)
    refine ⟨s', .cons hsave hrun, ?_⟩
    rwa [List.map_cons, List.reverse_cons, List.append_assoc]

end Row

section Results

variable {S : Type*} [Comparisons S] [Zero S] {localtime : ℕ → Tm} {path : Option CString}
  {conf : List UInt8} {A H : Finset CString} {fs : Files}
  {row : List (SaveCall localtime × EngineMaps)}

/-- The program comes up with the snapshot of these maps, in whatever memory it is granted. -/
def StartsWith (S : Type*) [Comparisons S] [Zero S] (path : Option CString) (fs : Files)
    (V : EngineMaps) : Prop :=
  ∃ D, SnapshotOf V D ∧ ∀ w : StartIO S, w.Grants → ∃ p : Process S,
    Returns (fun n => Process.start n w path fs) p ∧ p.store.toEngines.Hold D

theorem Brings.startsWith {V : EngineMaps} {f : List UInt8}
    (h : Brings (startConfig path conf).rdb V f) (hconf : fs rdbConfigFile = some conf)
    (hf : fs (startConfig path conf).rdbFile = some f) : StartsWith S path fs V := by
  obtain ⟨D, hD, hrestores⟩ := h.restores
  refine ⟨D, hD, fun w hw => ?_⟩
  rw [← hf] at hrestores
  obtain ⟨p, hret, -, -, hold⟩ := Process.start_returns (.there hconf) hw hrestores
  exact ⟨p, hret, hold⟩

/-- In a row of saves, none of them in the second of another, every save but the last can be gone back
to: a file of the backup directory makes the next start come up with what was saved then, and the
restore changes no file but the snapshot. -/
theorem kvstore_brings_back (S : Type*) [Comparisons S] [Zero S] (hb : Budget A H)
    (hplain : (startConfig path conf).Plain)
    (hbackup : (startConfig path conf).rdb.rdbBackup = true)
    (hfile : (startConfig path conf).rdbFile ≠ rdbConfigFile)
    (hdir : ¬ InBackupDir (startConfig path conf).rdb (startConfig path conf).rdbFile)
    (hconf : fs rdbConfigFile = some conf)
    (hstamps : (row.map fun x => x.1.io.stamp).Nodup)
    (hrow : ∀ x ∈ row, SavesMaps (startConfig path conf).rdb A H x) : ∃ s,
      Runs (Saved (startConfig path conf).rdb (startConfig path conf).rdbFile) ⟨fs, []⟩
        (row.map fun x => (x.1, 0)) s ∧
      ∀ x ∈ row.dropLast, ∃ file, InBackupDir (startConfig path conf).rdb file ∧
        ∀ io : RestoreIO, io.srcOpens = true → io.dstOpens = true → ∃ fs',
          rdbRestoreFromBackup (startConfig path conf) io s.files (some file) = (0, fs') ∧
          (∀ other ≠ (startConfig path conf).rdbFile, fs' other = s.files other) ∧
          StartsWith S path fs' x.2 := by
  obtain ⟨hen, hcrc⟩ := hplain
  have hfirst : Backed (startConfig path conf).rdb (startConfig path conf).rdbFile conf
      (row.map fun x => x.1.io.stamp) ⟨fs, []⟩ [] := by
    refine ⟨?_, hconf, ?_, ?_⟩
    · exact fun old hold => absurd hold List.not_mem_nil
    · exact fun V hV => absurd hV (Option.not_mem_none V)
    · exact fun V hV => absurd hV List.not_mem_nil
  obtain ⟨s, hrun, hs⟩ := hfirst.run hen hcrc hbackup hfile hdir hstamps hrow hb
  refine ⟨s, hrun, fun x hx => ?_⟩
  have hearlier : x.2 ∈ ((row.map Prod.snd).reverse ++ []).tail := by
    rw [List.append_nil, List.tail_reverse, List.mem_reverse, ← List.map_dropLast]
    exact List.mem_map_of_mem hx
  obtain ⟨f, hf, hbrings⟩ := hs.earlier x.2 hearlier
  obtain ⟨tm, -, hcopy⟩ := hs.stamped f hf
  have hbacked := inBackupDir_backupFile (startConfig path conf).rdb tm
  refine ⟨_, hbacked, fun io hsrc hdst => ?_⟩
  have hne : backupFile (startConfig path conf).rdb tm.stamp ≠ (startConfig path conf).rdbFile :=
    fun he => hdir (he ▸ hbacked)
  have hv := hbrings.verified io.room
  rw [← hcopy] at hv
  refine ⟨_, rdbRestoreFromBackup_copies hv hsrc hdst hne, fun other ho => ?_, ?_⟩
  · exact Function.update_of_ne ho ..
  · apply hbrings.startsWith ((Function.update_of_ne hfile.symm ..).trans hs.configured)
    rw [Function.update_self, hcopy]

theorem startStore_hold : startStore.toEngines.Hold .empty :=
  ⟨.create, .create Nat.one_ne_zero, .create⟩

/-- A letter was set in the array. -/
theorem exists_letter_hold : ∃ e : Engines, e.Hold (nextMaps EngineMaps.empty setLetterRequest) := by
  obtain ⟨a, -, ha, -⟩ := KvsArray.Dense.create.set rfl (by decide) (.read [97]) (.read [98])
  refine ⟨{ startStore.toEngines with array := a }, ha, ?_, ?_⟩
  · exact startStore_hold.tree
  · exact startStore_hold.hash

/-- The letter was set and saved, and is gone in the next save; its backup brings it back. -/
theorem kvstore_brings_back_letter : ∃ (e : Engines) (s : Snapshots) (file : CString) (fs' : Files)
    (V : EngineMaps), V .array (.read [97]) = some (.read [98]) ∧
      Runs (Saved (startConfig none (checksumConf false)).rdb
        (startConfig none (checksumConf false)).rdbFile)
        ⟨Function.update (fun _ => none) rdbConfigFile (some (checksumConf false)), []⟩
        [(callAt 0 e, 0), (callAt 1 startStore.toEngines, 0)] s ∧
      rdbRestoreFromBackup (startConfig none (checksumConf false)) ⟨true, true, true⟩ s.files
        (some file) = (0, fs') ∧ StartsWith ℕ none fs' V := by
  obtain ⟨e, he⟩ := exists_letter_hold
  have hcfg : startConfig none (checksumConf false) =
      ⟨{ defaultSettings with rdbCrc64 := false }.toRdbConfig, defaultSettings.rdbFile⟩ := by
    rw [startConfig, startSettings_checksum]
  have hnamed : Named (startConfig none (checksumConf false)).rdb (firstDay 0).stamp ∧
      Named (startConfig none (checksumConf false)).rdb (firstDay 1).stamp := by
    rw [hcfg]
    exact ⟨⟨by decide, by decide⟩, by decide, by decide⟩
  have hletter := EngineMaps.Within.empty.nextMaps setLetterRequest_proper.1
    setLetterRequest_proper.2
  have hrow : ∀ x ∈ [(callAt 0 e, nextMaps EngineMaps.empty setLetterRequest),
      (callAt 1 startStore.toEngines, EngineMaps.empty)],
      SavesMaps (startConfig none (checksumConf false)).rdb {setLetter.key} ∅ x := by
    intro x hx
    simp only [List.mem_cons, List.not_mem_nil, or_false] at hx
    obtain rfl | rfl := hx
    · exact ⟨he, hletter, hnamed.1⟩
    · exact ⟨startStore_hold, .empty, hnamed.2⟩
  have hstamps : (List.map (fun x : SaveCall firstDay × EngineMaps => x.1.io.stamp)
      [(callAt 0 e, nextMaps EngineMaps.empty setLetterRequest),
        (callAt 1 startStore.toEngines, EngineMaps.empty)]).Nodup := by
    change [(firstDay 0).stamp, (firstDay 1).stamp].Nodup
    decide
  have hdir : ¬ InBackupDir (startConfig none (checksumConf false)).rdb
      (startConfig none (checksumConf false)).rdbFile := by
    rw [hcfg]
    rintro ⟨name, -, hname⟩
    cases hname
  obtain ⟨s, hrun, hback⟩ := kvstore_brings_back ℕ letterBudget (by rw [hcfg]; exact ⟨rfl, rfl⟩)
    (by rw [hcfg]; rfl) (startConfig_checksum_file false) hdir (Function.update_self ..)
    hstamps hrow
  obtain ⟨file, -, hfile⟩ := hback _ List.mem_cons_self
  obtain ⟨fs', hres, -, hstarts⟩ := hfile ⟨true, true, true⟩ rfl rfl
  exact ⟨e, s, file, fs', nextMaps EngineMaps.empty setLetterRequest, by decide, hrun, hres, hstarts⟩

end Results

end KvStore
