import KvStore.Lib.Decimal
import KvStore.Lib.LineReader
import KvStore.Rdb.Model
import Mathlib.Data.List.DropRight

/-! The configuration of the snapshots: the calls that set it, and the text file that it is written to
and read from. A line of the file is what one `fgets` takes of it. -/
namespace KvStore

/-- `rdb_config_t`. -/
structure RdbSettings extends RdbConfig where
  saveInterval : Int32
  rdbFile : CString

/-- `g_rdb_config` at the start of the program. -/
def defaultSettings : RdbSettings where
  rdbEnabled := true
  rdbCompression := false
  rdbCrc64 := true
  rdbBackup := true
  backupDir := .read (text ['.', '/', 'b', 'a', 'c', 'k', 'u', 'p'])
  saveInterval := 300
  rdbFile := .read (text ['k', 'v', 's', '.', 'r', 'd', 'b'])

/-- `strncpy` into a field of `MAX_PATH_LEN` bytes whose last one is set to NUL. -/
def copyPath (s : CString) : CString := .read (s.bytes.take (maxPathLen - 1))

section Setters

variable (cfg : RdbSettings)

def rdbConfigSetSaveInterval (interval : Int32) : ℤ × RdbSettings :=
  if interval ≤ 0 then (-1, cfg) else (0, { cfg with saveInterval := interval })

def rdbConfigSetRdbFile : Option CString → ℤ × RdbSettings
  | none => (-1, cfg)
  | some file => (0, { cfg with rdbFile := copyPath file })

def rdbConfigSetEnabled (enabled : Bool) : ℤ × RdbSettings := (0, { cfg with rdbEnabled := enabled })

def rdbConfigSetCompression (enabled : Bool) : ℤ × RdbSettings :=
  (0, { cfg with rdbCompression := enabled })

def rdbConfigSetCrc64 (enabled : Bool) : ℤ × RdbSettings := (0, { cfg with rdbCrc64 := enabled })

def rdbConfigSetBackup (enabled : Bool) : Option CString → ℤ × RdbSettings
  | none => (0, { cfg with rdbBackup := enabled })
  | some dir => (0, { cfg with rdbBackup := enabled, backupDir := copyPath dir })

end Setters

def maxConfigLine : ℕ := 256

def saveIntervalKey : List UInt8 :=
  text ['s', 'a', 'v', 'e', '_', 'i', 'n', 't', 'e', 'r', 'v', 'a', 'l']

def rdbFileKey : List UInt8 := text ['r', 'd', 'b', '_', 'f', 'i', 'l', 'e']

def rdbEnabledKey : List UInt8 := text ['r', 'd', 'b', '_', 'e', 'n', 'a', 'b', 'l', 'e', 'd']

def rdbCompressionKey : List UInt8 :=
  text ['r', 'd', 'b', '_', 'c', 'o', 'm', 'p', 'r', 'e', 's', 's', 'i', 'o', 'n']

def rdbBackupKey : List UInt8 := text ['r', 'd', 'b', '_', 'b', 'a', 'c', 'k', 'u', 'p']

def backupDirKey : List UInt8 := text ['b', 'a', 'c', 'k', 'u', 'p', '_', 'd', 'i', 'r']

def rdbCrc64Key : List UInt8 := text ['r', 'd', 'b', '_', 'c', 'r', 'c', '6', '4']

section Load

/-- `while (*s == ' ') s++`. -/
def skipBlanks (bs : List UInt8) : List UInt8 := bs.dropWhile (· = 32)

/-- The loop from the last byte back, which stops at the first one. -/
def cutBlanks : List UInt8 → List UInt8
  | [] => []
  | b :: bs => b :: bs.rdropWhile (· = 32)

/-- Key and value of a line, or `none` where the loop goes on to the next. -/
def configEntry (line : List UInt8) : Option (List UInt8 × List UInt8) :=
  let line := (CString.read line).bytes
  if line.head? = some 35 ∨ line.head? = some 10 ∨ line.head? = some 13 then none
  else
    let line := line.takeWhile (· ≠ 10)
    let line := line.takeWhile (· ≠ 13)
    if 61 ∈ line then
      let key := line.takeWhile (· ≠ 61)
      let value := line.drop (key.length + 1)
      some (cutBlanks (skipBlanks key), cutBlanks (skipBlanks value))
    else none

/-- The value of a flag. -/
def configFlag (value : List UInt8) : Bool := value = text ['y', 'e', 's'] ∨ value = text ['1']

def applyEntry (cfg : RdbSettings) (e : List UInt8 × List UInt8) : RdbSettings :=
  if e.1 = saveIntervalKey then { cfg with saveInterval := Decimal.atoi e.2 }
  else if e.1 = rdbFileKey then { cfg with rdbFile := copyPath (.read e.2) }
  else if e.1 = rdbEnabledKey then { cfg with rdbEnabled := configFlag e.2 }
  else if e.1 = rdbCompressionKey then { cfg with rdbCompression := configFlag e.2 }
  else if e.1 = rdbBackupKey then { cfg with rdbBackup := configFlag e.2 }
  else if e.1 = backupDirKey then { cfg with backupDir := copyPath (.read e.2) }
  else if e.1 = rdbCrc64Key then { cfg with rdbCrc64 := configFlag e.2 }
  else cfg

/-- The entries of a file, one for each read that gives one. -/
def configEntries (bs : List UInt8) : List (List UInt8 × List UInt8) :=
  (LineReader.reads 10 (maxConfigLine - 2) bs).filterMap configEntry

def rdbConfigLoad (cfg : RdbSettings) : Option (List UInt8) → ℤ × RdbSettings
  | none => (-1, cfg)
  | some bs => (0, (configEntries bs).foldl applyEntry cfg)

end Load

section Save

def yesNo (flag : Bool) : List UInt8 := if flag then text ['y', 'e', 's'] else text ['n', 'o']

/-- A comment of the file, in UTF-8. -/
def comment (cs : List Char) : List UInt8 := text ['#', ' '] ++ cs.flatMap String.utf8EncodeChar

def entryLine (key value : List UInt8) : List UInt8 := key ++ (text [' ', '=', ' '] ++ value)

/-- The lines that `rdb_config_save` writes. -/
def configLines (cfg : RdbSettings) : List (List UInt8) :=
  [comment ['K', 'V', 'S', ' ', 'R', 'D', 'B', ' ', '配', '置', '文', '件'],
    comment ['格', '式', ':', ' ', 'k', 'e', 'y', ' ', '=', ' ', 'v', 'a', 'l', 'u', 'e'],
    comment ['注', '释', '以', ' ', '#', ' ', '开', '头'], [],
    comment ['自', '动', '保', '存', '间', '隔', '（', '秒', '）'],
    entryLine saveIntervalKey (Decimal.decimal cfg.saveInterval.toInt), [],
    comment ['R', 'D', 'B', ' ', '文', '件', '路', '径'],
    entryLine rdbFileKey cfg.rdbFile.bytes, [],
    comment ['是', '否', '启', '用', ' ', 'R', 'D', 'B'],
    entryLine rdbEnabledKey (yesNo cfg.rdbEnabled), [],
    comment ['是', '否', '启', '用', '压', '缩', '（', '可', '选', '）'],
    entryLine rdbCompressionKey (yesNo cfg.rdbCompression), [],
    comment ['是', '否', '启', '用', 'C', 'R', 'C', '6', '4', '校', '验'],
    entryLine rdbCrc64Key (yesNo cfg.rdbCrc64), [],
    comment ['是', '否', '启', '用', '备', '份'],
    entryLine rdbBackupKey (yesNo cfg.rdbBackup), [],
    comment ['备', '份', '目', '录'],
    entryLine backupDirKey cfg.backupDir.bytes]

/-- `opens` tells whether the file opens for writing. -/
def rdbConfigSave (opens : Bool) (cfg : RdbSettings) (fs : Files) (configFile : CString) :
    ℤ × Files :=
  if !opens then (-1, fs)
  else (0, Function.update fs configFile (some ((configLines cfg).flatMap fun l => l ++ [10])))

end Save

end KvStore
