import KvStore.Rdb.Config

/-! Writing the configuration and reading it back. `fgets` takes 255 bytes of a line, so that a path
comes back when its line is no longer than that; of a longer one no read gives all. -/
namespace KvStore
open LineReader Decimal

variable {cfg : RdbSettings} {key value line l : List UInt8} {e : List UInt8 × List UInt8}

/-- A call of one of the functions that set the configuration. -/
inductive ConfigCall
  | saveInterval (interval : Int32)
  | rdbFile (file : Option CString)
  | enabled (flag : Bool)
  | compression (flag : Bool)
  | crc64 (flag : Bool)
  | backup (flag : Bool) (dir : Option CString)

def ConfigCall.run (cfg : RdbSettings) : ConfigCall → ℤ × RdbSettings
  | .saveInterval interval => rdbConfigSetSaveInterval cfg interval
  | .rdbFile file => rdbConfigSetRdbFile cfg file
  | .enabled flag => rdbConfigSetEnabled cfg flag
  | .compression flag => rdbConfigSetCompression cfg flag
  | .crc64 flag => rdbConfigSetCrc64 cfg flag
  | .backup flag dir => rdbConfigSetBackup cfg flag dir

/-- What the calls make of the configuration at the start of the program. -/
def configured (calls : List ConfigCall) : RdbSettings :=
  calls.foldl (fun cfg c => (c.run cfg).2) defaultSettings

/-- Bytes that neither begin nor end with a blank. -/
def Trimmed (bs : List UInt8) : Prop := bs.head? ≠ some 32 ∧ bs.getLast? ≠ some 32

/-- Such bytes, and neither CR nor LF among them. -/
structure PlainPath (s : CString) : Prop where
  cr : 13 ∉ s.bytes
  lf : 10 ∉ s.bytes
  trimmed : Trimmed s.bytes

/-- The configuration is written, and read back over any other. -/
def RoundTrips (cfg : RdbSettings) : Prop :=
  ∀ cfg' fs configFile, (rdbConfigSave true cfg fs configFile).1 = 0 ∧
    rdbConfigLoad cfg' ((rdbConfigSave true cfg fs configFile).2 configFile) = (0, cfg)

section Entry

/-! What a line gives. -/

theorem cutBlanks_skipBlanks (h : Trimmed value) : cutBlanks (skipBlanks value) = value := by
  cases value with
  | nil => rfl
  | cons b bs =>
    have hb : b ≠ 32 := fun hb => h.1 (by rw [hb]; rfl)
    rw [skipBlanks, List.dropWhile_cons, if_neg (by simpa using hb), cutBlanks, List.cons.injEq,
      List.rdropWhile_eq_self_iff]
    refine ⟨rfl, fun hl hlast => h.2 ?_⟩
    rw [List.getLast?_cons, List.getLast?_eq_some_getLast hl, of_decide_eq_true hlast]
    rfl

theorem length_cutBlanks_le (bs : List UInt8) : (cutBlanks bs).length ≤ bs.length := by
  cases bs with
  | nil => exact le_rfl
  | cons b bs => exact Nat.succ_le_succ (List.rdropWhile_prefix _ _).length_le

theorem length_trim_le (bs : List UInt8) : (cutBlanks (skipBlanks bs)).length ≤ bs.length :=
  (length_cutBlanks_le _).trans (List.dropWhile_suffix _).length_le

/-- The value of an entry is shorter than its line. -/
theorem length_configEntry_lt (h : configEntry line = some e) : e.2.length < line.length := by
  simp only [configEntry] at h
  split_ifs at h with hhead heq
  cases h
  have hline : (((CString.read line).bytes.takeWhile (· ≠ 10)).takeWhile (· ≠ 13)).length ≤
      line.length :=
    ((List.takeWhile_prefix _).length_le.trans (List.takeWhile_prefix _).length_le).trans
      (List.takeWhile_prefix _).length_le
  have hpos := List.length_pos_of_mem heq
  refine lt_of_le_of_lt (length_trim_le _) ?_
  rw [List.length_drop]
  omega

/-- The bytes that a key is made of. -/
def IsWord (key : List UInt8) : Prop := key ≠ [] ∧ ∀ b ∈ key, b ∉ [0, 10, 13, 32, 35, 61]

instance : Decidable (IsWord key) := @instDecidableAnd _ _ inferInstance (List.decidableBAll _ key)

theorem takeWhile_append_stop {p : UInt8 → Bool} {bs rest : List UInt8} (h : ∀ b ∈ bs, p b = true)
    (hrest : ∀ b ∈ rest.head?, p b = false) : (bs ++ rest).takeWhile p = bs := by
  rw [List.takeWhile_append_of_pos h]
  cases rest with
  | nil => exact List.append_nil _
  | cons b rest => rw [List.takeWhile_cons, if_neg (by simp [hrest b rfl]), List.append_nil]

theorem ne_of_notMem {bs : List UInt8} {c : UInt8} (h : c ∉ bs) : ∀ b ∈ bs, decide (b ≠ c) = true :=
  fun _ hb => decide_eq_true fun he => h (he ▸ hb)

theorem cutBlanks_word (h : IsWord key) : cutBlanks (skipBlanks (key ++ [32])) = key := by
  obtain ⟨b, bs, rfl⟩ := List.exists_cons_of_ne_nil h.1
  have hb : b ≠ 32 := fun he => h.2 b List.mem_cons_self (by simp [he])
  rw [skipBlanks, List.cons_append, List.dropWhile_cons, if_neg (by simpa using hb), cutBlanks,
    List.rdropWhile_concat_pos _ _ _ (by decide), List.rdropWhile_eq_self_iff.mpr]
  intro hl hlast
  exact h.2 _ (List.mem_cons_of_mem b (List.getLast_mem hl)) (by simp [of_decide_eq_true hlast])

theorem entryLine_eq (key value : List UInt8) :
    entryLine key value = (key ++ [32]) ++ 61 :: 32 :: value := by
  rw [entryLine, List.append_assoc]
  rfl

theorem notMem_entryLine {c : UInt8} (hkey : IsWord key) (hc : c = 0 ∨ c = 10 ∨ c = 13)
    (hvalue : c ∉ value) : c ∉ entryLine key value := by
  have hne : c ≠ 32 ∧ c ≠ 61 := by
    obtain rfl | rfl | rfl := hc
    · decide
    · decide
    · decide
  have hnone : c ∉ key := fun hm => hkey.2 c hm (by simp only [List.mem_cons]; tauto)
  rw [entryLine_eq]
  simp [hnone, hne, hvalue]

theorem entryLine_head (hkey : IsWord key) (tail : List UInt8) {c : UInt8}
    (hc : c = 35 ∨ c = 10 ∨ c = 13) : (entryLine key value ++ tail).head? ≠ some c := by
  obtain ⟨b, bs, rfl⟩ := List.exists_cons_of_ne_nil hkey.1
  rintro he
  obtain rfl : b = c := Option.some.inj he
  exact hkey.2 b List.mem_cons_self (by simp only [List.mem_cons]; tauto)

/-- A line of a key and a value, with or without the line end behind it. -/
theorem configEntry_entryLine (hkey : IsWord key) (hvalue : ∀ c, c = 0 ∨ c = 10 ∨ c = 13 → c ∉ value)
    {tail : List UInt8} (htail : tail = [] ∨ tail = [10]) :
    configEntry (entryLine key value ++ tail) = some (key, cutBlanks (skipBlanks value)) := by
  have hnone : ∀ c, c = 0 ∨ c = 10 ∨ c = 13 → c ∉ entryLine key value :=
    fun c hc => notMem_entryLine hkey hc (hvalue c hc)
  have hread : (CString.read (entryLine key value ++ tail)).bytes = entryLine key value ++ tail := by
    refine List.takeWhile_eq_self_iff.mpr (ne_of_notMem fun h0 => ?_)
    obtain h0 | h0 := List.mem_append.mp h0
    · exact hnone 0 (.inl rfl) h0
    · obtain rfl | rfl := htail
      · exact List.not_mem_nil h0
      · exact absurd h0 (by decide)
  have hlf : (entryLine key value ++ tail).takeWhile (· ≠ 10) = entryLine key value := by
    refine takeWhile_append_stop (ne_of_notMem (hnone 10 (.inr (.inl rfl)))) ?_
    obtain rfl | rfl := htail
    · simp
    · simp
  have hcr : (entryLine key value).takeWhile (· ≠ 13) = entryLine key value :=
    List.takeWhile_eq_self_iff.mpr (ne_of_notMem (hnone 13 (.inr (.inr rfl))))
  have hmem : 61 ∈ entryLine key value := by
    rw [entryLine_eq]
    exact List.mem_append_right _ List.mem_cons_self
  have hkeyPart : (entryLine key value).takeWhile (· ≠ 61) = key ++ [32] := by
    rw [entryLine_eq]
    refine takeWhile_append_stop (ne_of_notMem fun hm => ?_) (by simp)
    obtain hm | hm := List.mem_append.mp hm
    · exact hkey.2 61 hm (by simp)
    · exact absurd hm (by decide)
  have hvaluePart : (entryLine key value).drop ((key ++ [32]).length + 1) = 32 :: value := by
    have hcons : entryLine key value = (key ++ [32] ++ [61]) ++ 32 :: value := by
      rw [entryLine_eq, List.append_assoc _ [61]]
      rfl
    rw [hcons]
    exact List.drop_left' List.length_append
  have hskip : skipBlanks (32 :: value) = skipBlanks value := rfl
  simp only [configEntry, hread, hlf, hcr, if_pos hmem, hkeyPart, hvaluePart, cutBlanks_word hkey,
    hskip]
  rw [if_neg]
  rintro (h | h | h)
  · exact entryLine_head hkey tail (.inl rfl) h
  · exact entryLine_head hkey tail (.inr (.inl rfl)) h
  · exact entryLine_head hkey tail (.inr (.inr rfl)) h

/-- A field that the entries of one key set, and no others. -/
def SetBy (field : RdbSettings → CString) (key : List UInt8) : Prop :=
  ∀ cfg e, field (applyEntry cfg e) = if e.1 = key then copyPath (.read e.2) else field cfg

theorem rdbFile_setBy : SetBy (fun cfg => cfg.rdbFile) rdbFileKey := by
  intro cfg e
  by_cases h : e.1 = rdbFileKey
  · rw [if_pos h, applyEntry, if_neg (by rw [h]; decide), if_pos h]
  · rw [if_neg h, applyEntry, if_neg h]
    split_ifs <;> rfl

theorem backupDir_setBy : SetBy (fun cfg => cfg.backupDir) backupDirKey := by
  intro cfg e
  by_cases h : e.1 = backupDirKey
  · rw [if_pos h, applyEntry, if_neg (by rw [h]; decide), if_neg (by rw [h]; decide),
      if_neg (by rw [h]; decide), if_neg (by rw [h]; decide), if_neg (by rw [h]; decide), if_pos h]
  · rw [if_neg h, applyEntry]
    split_ifs <;> rfl

end Entry

section Lines

/-! What the reads of one line give. -/

theorem configEntries_flatMap {ls : List (List UInt8)} (h : ∀ l ∈ ls, 10 ∉ l) :
    configEntries (ls.flatMap fun l => l ++ [10]) = ls.flatMap fun l => configEntries (l ++ [10]) := by
  rw [configEntries, reads_flatMap h, List.filterMap_flatMap]
  rfl

theorem configEntries_short (hlf : 10 ∉ l) (h : l.length ≤ 254) :
    configEntries (l ++ [10]) = (configEntry (l ++ [10])).toList := by
  rw [configEntries, maxConfigLine, reads_short hlf h, reads_nil, List.filterMap_cons]
  cases configEntry (l ++ [10]) <;> rfl

/-- A comment or an empty line, of a length that one read takes. -/
def IsIgnored (l : List UInt8) : Prop := 10 ∉ l ∧ l.length ≤ 254 ∧ (l = [] ∨ l.head? = some 35)

instance : Decidable (IsIgnored l) := inferInstanceAs (Decidable (_ ∧ _))

theorem configEntries_ignored (h : IsIgnored l) : configEntries (l ++ [10]) = [] := by
  obtain ⟨hlf, hlen, rfl | hhead⟩ := h
  · rw [configEntries_short hlf hlen]
    rfl
  · rw [configEntries_short hlf hlen]
    cases l with
    | nil => cases hhead
    | cons b bs =>
      obtain rfl : b = 35 := Option.some.inj hhead
      rfl

/-- An entry whose line takes no more than one read. -/
theorem configEntries_fits (hkey : IsWord key) (hvalue : ∀ c, c = 0 ∨ c = 10 ∨ c = 13 → c ∉ value)
    (hlen : (entryLine key value).length ≤ 255) :
    configEntries (entryLine key value ++ [10]) = [(key, cutBlanks (skipBlanks value))] := by
  have hlf := notMem_entryLine hkey (.inr (.inl rfl)) (hvalue 10 (.inr (.inl rfl)))
  obtain hlen | hlen := Nat.le_succ_iff.mp hlen
  · rw [configEntries_short hlf hlen, configEntry_entryLine hkey hvalue (.inr rfl)]
    rfl
  · -- the buffer is full before the line end, which makes a line of its own
    have hentry := configEntry_entryLine hkey hvalue (.inl rfl)
    rw [List.append_nil] at hentry
    rw [configEntries, maxConfigLine, reads_long hlf hlen.ge (List.cons_ne_nil _ _),
      List.take_of_length_le hlen.le, List.drop_of_length_le hlen.le, reads_short List.not_mem_nil
      (Nat.zero_le _), reads_nil, List.filterMap_cons_some hentry]
    rfl

theorem length_entryLine (key value : List UInt8) :
    (entryLine key value).length = key.length + 3 + value.length := by
  rw [entryLine_eq, List.length_append, List.length_append, List.length_cons, List.length_cons]
  simp only [List.length_cons, List.length_nil]
  omega

theorem take_entryLine {n : ℕ} (h : key.length + 3 ≤ n) :
    (entryLine key value).take n = entryLine key (value.take (n - (key.length + 3))) := by
  have hstart : (key ++ text [' ', '=', ' ']).length = key.length + 3 := List.length_append
  rw [entryLine, entryLine, ← List.append_assoc, ← List.append_assoc, List.take_append,
    List.take_of_length_le (hstart.le.trans h), hstart]

/-- What is read of a longer line has only values shorter than the one in it. -/
theorem configEntries_long (hkey : IsWord key) (hlen : key.length ≤ 251)
    (hvalue : ∀ c, c = 0 ∨ c = 10 ∨ c = 13 → c ∉ value)
    (hlong : 255 < (entryLine key value).length) : ∃ v es,
    configEntries (entryLine key value ++ [10]) = (key, v) :: es ∧ v.length < value.length ∧
      ∀ e ∈ es, e.2.length < value.length := by
  have hlf := notMem_entryLine hkey (.inr (.inl rfl)) (hvalue 10 (.inr (.inl rfl)))
  have hread : configEntries (entryLine key value ++ [10]) =
      (configEntry ((entryLine key value).take 255)).toList ++
        configEntries ((entryLine key value).drop 255 ++ [10]) := by
    rw [configEntries, maxConfigLine, reads_long hlf hlong.le (List.cons_ne_nil _ _),
      List.filterMap_cons]
    cases configEntry ((entryLine key value).take 255) <;> rfl
  have hfirst : configEntry ((entryLine key value).take 255) =
      some (key, cutBlanks (skipBlanks (value.take (255 - (key.length + 3))))) := by
    rw [take_entryLine (by omega), ← List.append_nil (entryLine key _)]
    exact configEntry_entryLine hkey (fun c hc hm => hvalue c hc (List.mem_of_mem_take hm)) (.inl rfl)
  rw [length_entryLine] at hlong
  refine ⟨_, _, by rw [hread, hfirst]; rfl, ?_, ?_⟩
  · have hle := length_trim_le (value.take (255 - (key.length + 3)))
    have htake := List.length_take_le (255 - (key.length + 3)) value
    omega
  · intro e he
    obtain ⟨chunk, hchunk, hentry⟩ := List.mem_filterMap.mp he
    have hlt := length_configEntry_lt hentry
    have hle := (length_of_mem_reads hchunk).2
    rw [List.length_append, List.length_drop, length_entryLine, List.length_singleton] at hle
    omega

end Lines

section Trip

theorem PlainPath.notMem {path : CString} (h : PlainPath path) :
    ∀ c, c = 0 ∨ c = 10 ∨ c = 13 → c ∉ path.bytes := by
  rintro c (rfl | rfl | rfl)
  · exact path.nonzero
  · exact h.lf
  · exact h.cr

theorem length_copyPath_le (s : CString) : (copyPath s).length ≤ s.length :=
  (List.takeWhile_prefix _).length_le.trans (List.length_take_le' _ _)

theorem length_read_le (bs : List UInt8) : (CString.read bs).length ≤ bs.length :=
  (List.takeWhile_prefix _).length_le

/-- A path that a field has room for is copied as it is. -/
theorem copyPath_eq {s : CString} (h : s.length < maxPathLen) : copyPath s = s := by
  have hle : s.bytes.length ≤ maxPathLen - 1 := Nat.le_pred_of_lt h
  rw [copyPath, List.take_of_length_le hle, CString.read_bytes]

variable {field : RdbSettings → CString}

/-- Entries of other keys leave a field as it is. -/
theorem foldl_field (hfield : SetBy field key)
    {es : List (List UInt8 × List UInt8)} (h : ∀ e ∈ es, e.1 ≠ key) (cfg : RdbSettings) :
    field (es.foldl applyEntry cfg) = field cfg := by
  induction es generalizing cfg with
  | nil => rfl
  | cons e es ih =>
    rw [List.foldl_cons, ih fun e' he' => h e' (List.mem_cons_of_mem e he'), hfield,
      if_neg (h e List.mem_cons_self)]

/-- A field that is short stays so while only short values are set. -/
theorem foldl_field_short (hfield : SetBy field key) {n : ℕ}
    {es : List (List UInt8 × List UInt8)} (h : ∀ e ∈ es, e.2.length < n) (hcfg : (field cfg).length < n) :
    (field (es.foldl applyEntry cfg)).length < n := by
  induction es generalizing cfg with
  | nil => exact hcfg
  | cons e es ih =>
    refine ih (fun e' he' => h e' (List.mem_cons_of_mem e he')) ?_
    rw [hfield]
    split_ifs
    · exact ((length_copyPath_le _).trans (length_read_le _)).trans_lt (h e List.mem_cons_self)
    · exact hcfg

/-- A path whose line is longer than one read does not come back. -/
theorem long_field (hfield : SetBy field key) (hkey : IsWord key)
    (hlen : key.length ≤ 251) {path : CString} (hpath : PlainPath path)
    (hlong : 255 < key.length + 3 + path.length) (cfg : RdbSettings) :
    (field ((configEntries (entryLine key path.bytes ++ [10])).foldl applyEntry cfg)).length <
      path.length := by
  obtain ⟨v, es, hes, hv, hshort⟩ := configEntries_long hkey hlen hpath.notMem
    (by rw [length_entryLine]; exact hlong)
  rw [hes, List.foldl_cons]
  refine foldl_field_short hfield hshort ?_
  rw [hfield, if_pos rfl]
  exact ((length_copyPath_le _).trans (length_read_le _)).trans_lt hv

/-- A value of which every byte is printed, and none a blank. -/
def IsInk (value : List UInt8) : Prop := ∀ b ∈ value, 32 < b.toNat

instance : Decidable (IsInk value) := List.decidableBAll _ value

theorem IsInk.notMem (h : IsInk value) : ∀ c, c = 0 ∨ c = 10 ∨ c = 13 → c ∉ value := by
  rintro c (rfl | rfl | rfl) hc
  · exact absurd (h _ hc) (by decide)
  · exact absurd (h _ hc) (by decide)
  · exact absurd (h _ hc) (by decide)

theorem IsInk.trimmed (h : IsInk value) : Trimmed value := by
  have h32 : 32 ∉ value := fun hc => absurd (h _ hc) (by decide)
  exact ⟨fun hhead => h32 (List.mem_of_head? hhead), fun hlast => h32 (List.mem_of_getLast? hlast)⟩

theorem isInk_decimal (n : ℤ) : IsInk (decimal n) := by
  intro b hb
  obtain rfl | hdigit := mem_decimal hb
  · decide
  · omega

theorem isInk_yesNo (flag : Bool) : IsInk (yesNo flag) := by
  cases flag
  · decide
  · decide

theorem configFlag_yesNo (flag : Bool) : configFlag (yesNo flag) = flag := by
  cases flag
  · decide
  · decide

theorem configEntries_ink (hkey : IsWord key) (h : IsInk value)
    (hlen : key.length + 3 + value.length ≤ 255) :
    configEntries (entryLine key value ++ [10]) = [(key, value)] := by
  rw [configEntries_fits hkey h.notMem (by rwa [length_entryLine]), cutBlanks_skipBlanks h.trimmed]

theorem configEntries_flag (hkey : IsWord key) (hlen : key.length ≤ 249) (flag : Bool) :
    configEntries (entryLine key (yesNo flag) ++ [10]) = [(key, yesNo flag)] := by
  refine configEntries_ink hkey (isInk_yesNo flag) ?_
  have hyes : (yesNo flag).length ≤ 3 := by cases flag <;> decide
  omega

theorem configLines_lf (hfile : PlainPath cfg.rdbFile) (hdir : PlainPath cfg.backupDir) :
    ∀ l ∈ configLines cfg, 10 ∉ l := by
  have hflag : ∀ {key : List UInt8} (flag : Bool), IsWord key → 10 ∉ entryLine key (yesNo flag) :=
    fun flag hkey => notMem_entryLine hkey (by simp) ((isInk_yesNo flag).notMem 10 (by simp))
  simp only [configLines, List.forall_mem_cons]
  refine ⟨by decide, by decide, by decide, by decide, by decide, ?_, by decide, by decide, ?_,
    by decide, by decide, hflag _ (by decide), by decide, by decide, hflag _ (by decide), by decide,
    by decide, hflag _ (by decide), by decide, by decide, hflag _ (by decide), by decide, by decide,
    ?_, by simp⟩
  · exact notMem_entryLine (by decide) (by simp) ((isInk_decimal _).notMem 10 (by simp))
  · exact notMem_entryLine (by decide) (by simp) hfile.lf
  · exact notMem_entryLine (by decide) (by simp) hdir.lf

/-- What a written configuration gives when it is read: the two paths are all that may not come as
they are. -/
theorem configEntries_saved (hfile : PlainPath cfg.rdbFile) (hdir : PlainPath cfg.backupDir) :
    configEntries ((configLines cfg).flatMap fun l => l ++ [10]) =
      (saveIntervalKey, decimal cfg.saveInterval.toInt) ::
        (configEntries (entryLine rdbFileKey cfg.rdbFile.bytes ++ [10]) ++
          ((rdbEnabledKey, yesNo cfg.rdbEnabled) :: (rdbCompressionKey, yesNo cfg.rdbCompression) ::
            (rdbCrc64Key, yesNo cfg.rdbCrc64) :: (rdbBackupKey, yesNo cfg.rdbBackup) ::
              configEntries (entryLine backupDirKey cfg.backupDir.bytes ++ [10]))) := by
  have hlen := length_decimal_le cfg.saveInterval
  have hkey : saveIntervalKey.length = 13 := by decide
  have hinterval : configEntries (entryLine saveIntervalKey (decimal cfg.saveInterval.toInt) ++ [10]) =
      [(saveIntervalKey, decimal cfg.saveInterval.toInt)] :=
    configEntries_ink (by decide) (isInk_decimal _) (by omega)
  have hblank : configEntries [10] = [] := configEntries_ignored (l := []) (by decide)
  rw [configEntries_flatMap (configLines_lf hfile hdir)]
  simp (disch := decide) only [configLines, List.flatMap_cons, List.flatMap_nil, configEntries_ignored,
    hblank, hinterval, configEntries_flag, List.nil_append, List.append_nil, List.cons_append]

theorem rdbConfigSave_content (cfg : RdbSettings) (fs : Files) (configFile : CString) :
    (rdbConfigSave true cfg fs configFile).2 configFile =
      some ((configLines cfg).flatMap fun l => l ++ [10]) := Function.update_self ..

/-- The configuration comes back when the lines of both paths take no more than one read. -/
theorem roundTrips_of_short (hfile : PlainPath cfg.rdbFile) (hdir : PlainPath cfg.backupDir)
    (hlen : cfg.rdbFile.length ≤ 244) (hlen' : cfg.backupDir.length ≤ 242) : RoundTrips cfg := by
  intro cfg' fs configFile
  refine ⟨rfl, ?_⟩
  have hf : configEntries (entryLine rdbFileKey cfg.rdbFile.bytes ++ [10]) =
      [(rdbFileKey, cfg.rdbFile.bytes)] := by
    rw [configEntries_fits (by decide) hfile.notMem, cutBlanks_skipBlanks hfile.trimmed]
    rw [length_entryLine]
    exact Nat.add_le_add_left hlen 11
  have hd : configEntries (entryLine backupDirKey cfg.backupDir.bytes ++ [10]) =
      [(backupDirKey, cfg.backupDir.bytes)] := by
    rw [configEntries_fits (by decide) hdir.notMem, cutBlanks_skipBlanks hdir.trimmed]
    rw [length_entryLine]
    exact Nat.add_le_add_left hlen' 13
  have hpath := copyPath_eq (s := cfg.rdbFile) (hlen.trans_lt (by decide))
  have hbackup := copyPath_eq (s := cfg.backupDir) (hlen'.trans_lt (by decide))
  rw [rdbConfigSave_content, rdbConfigLoad, configEntries_saved hfile hdir, hf, hd]
  simp +decide only [List.singleton_append, List.foldl_cons, List.foldl_nil, applyEntry, if_true,
    if_false, atoi_decimal, configFlag_yesNo, CString.read_bytes, hpath, hbackup]

/-- It does not when the line of one of them takes more. -/
theorem RoundTrips.short (h : RoundTrips cfg) (hfile : PlainPath cfg.rdbFile)
    (hdir : PlainPath cfg.backupDir) : cfg.rdbFile.length ≤ 244 ∧ cfg.backupDir.length ≤ 242 := by
  have hback := (h cfg (fun _ => none) .empty).2
  rw [rdbConfigSave_content, rdbConfigLoad, configEntries_saved hfile hdir, Prod.mk.injEq, and_iff_right rfl] at hback
  -- the line of the directory is the last, and nothing sets it once more
  have hdirLen : cfg.backupDir.length ≤ 242 := by
    by_contra hlong
    have hlt := long_field backupDir_setBy (by decide) (by decide) hdir
      (show 255 < 13 + cfg.backupDir.length by omega)
    have he := congrArg (fun c : RdbSettings => c.backupDir.length) hback
    simp only [List.foldl_cons, List.foldl_append] at he
    exact absurd he (hlt _).ne
  refine ⟨?_, hdirLen⟩
  by_contra hlong
  have hlt := long_field rdbFile_setBy (by decide) (by decide) hfile
    (show 255 < 11 + cfg.rdbFile.length by omega)
  have hd : configEntries (entryLine backupDirKey cfg.backupDir.bytes ++ [10]) =
      [(backupDirKey, cutBlanks (skipBlanks cfg.backupDir.bytes))] := by
    apply configEntries_fits (by decide) hdir.notMem
    rw [length_entryLine]
    exact Nat.add_le_add_left hdirLen 13
  have he := congrArg (fun c : RdbSettings => c.rdbFile.length) hback
  rw [hd, List.foldl_cons, List.foldl_append] at he
  have hrest : ∀ c, (List.foldl applyEntry c ((rdbEnabledKey, yesNo cfg.rdbEnabled) ::
      (rdbCompressionKey, yesNo cfg.rdbCompression) :: (rdbCrc64Key, yesNo cfg.rdbCrc64) ::
      (rdbBackupKey, yesNo cfg.rdbBackup) ::
      [(backupDirKey, cutBlanks (skipBlanks cfg.backupDir.bytes))])).rdbFile = c.rdbFile :=
    foldl_field rdbFile_setBy (by simp +decide)
  exact absurd ((congrArg CString.length (hrest _)).symm.trans he) (hlt _).ne

/-- A configuration that the calls have made comes back exactly when its path is at most 244 bytes
long and its directory at most 242. -/
theorem rdbConfig_roundTrips_iff (calls : List ConfigCall) (hfile : PlainPath (configured calls).rdbFile)
    (hdir : PlainPath (configured calls).backupDir) :
    RoundTrips (configured calls) ↔
      (configured calls).rdbFile.length ≤ 244 ∧ (configured calls).backupDir.length ≤ 242 :=
  ⟨fun h => h.short hfile hdir, fun h => roundTrips_of_short hfile hdir h.1 h.2⟩

theorem rdbConfig_roundTrips_iff_default : RoundTrips (configured [.saveInterval 60, .enabled false]) :=
  (rdbConfig_roundTrips_iff [.saveInterval 60, .enabled false]
    ⟨by decide, by decide, by decide, by decide⟩ ⟨by decide, by decide, by decide, by decide⟩).mpr
    (by decide)

theorem isInk_replicate (n : ℕ) : IsInk (List.replicate n 97) := by
  intro b hb
  rw [List.eq_of_mem_replicate hb]
  decide

/-- A path of `n` letters. -/
def letterPath (n : ℕ) : CString :=
  ⟨List.replicate n 97, (isInk_replicate n).notMem 0 (.inl rfl)⟩

theorem letterPath_plain (n : ℕ) : PlainPath (letterPath n) :=
  ⟨(isInk_replicate n).notMem 13 (by simp), (isInk_replicate n).notMem 10 (by simp),
    (isInk_replicate n).trimmed⟩

theorem length_letterPath (n : ℕ) : (letterPath n).length = n := List.length_replicate

/-- Of a path of 245 letters the last one is lost. -/
theorem rdbConfig_cuts_path :
    PlainPath (configured [.rdbFile (some (letterPath 245))]).rdbFile ∧
    PlainPath (configured [.rdbFile (some (letterPath 245))]).backupDir ∧
    ¬ RoundTrips (configured [.rdbFile (some (letterPath 245))]) := by
  have hset : (configured [.rdbFile (some (letterPath 245))]).rdbFile = letterPath 245 :=
    copyPath_eq (by rw [length_letterPath]; decide)
  have hfile : PlainPath (configured [.rdbFile (some (letterPath 245))]).rdbFile := by
    rw [hset]
    exact letterPath_plain 245
  have hdir : PlainPath (configured [.rdbFile (some (letterPath 245))]).backupDir :=
    ⟨by decide, by decide, by decide, by decide⟩
  refine ⟨hfile, hdir, fun htrip => ?_⟩
  have hle := (htrip.short hfile hdir).1
  rw [hset, length_letterPath] at hle
  omega

end Trip

end KvStore
