import KvStore.Array.Model
import KvStore.Hash.Model
import KvStore.Lib.Endian
import KvStore.Rbtree.Model
import KvStore.Rdb.Crc

/-! The snapshot files of `kv_RDB.c`: saving the engines, checking a file, and loading it. A save
gives `none` when it reads an engine's memory that holds no string. What the system answers
(whether a file opens, whether there is memory, the time) is an argument. -/
namespace KvStore
open Endian

/-- The bytes of a text of the source. -/
def text (cs : List Char) : List UInt8 := cs.map fun c => UInt8.ofNat c.toNat

def rdbMagic : ℕ := 0x5244424B
def rdbVersion : ℕ := 1
def rdbAlignment : ℕ := 8
def rdbAlignSize (size : ℕ) : ℕ := (size + rdbAlignment - 1) / rdbAlignment * rdbAlignment
def rdbFooterSize : ℕ := 20
def maxPathLen : ℕ := 512

/-- `RDB_EOF_MARKER` with its NUL. -/
def rdbEofMarker : List UInt8 := text ['E', 'O', 'F'] ++ [0]

/-- `rdb_config_t`, as far as saving and loading look at it. -/
structure RdbConfig where
  rdbEnabled : Bool
  rdbCompression : Bool
  rdbCrc64 : Bool
  rdbBackup : Bool
  backupDir : CString

/-- `rdb_header_t`, packed. -/
structure RdbHeader where
  magic : ℕ
  version : ℕ
  flags : ℕ
  dataSize : ℕ
  recordCount : ℕ
  saveTime : ℕ
  alignmentPadding : ℕ

/-- `sizeof(rdb_header_t)`. -/
def rdbHeaderBytes : ℕ := 32

def RdbHeader.bytes (h : RdbHeader) : List UInt8 :=
  toBytes 4 h.magic ++ (toBytes 4 h.version ++ (toBytes 4 h.flags ++ (toBytes 4 h.dataSize ++
    (toBytes 4 h.recordCount ++ (toBytes 8 h.saveTime ++ toBytes 4 h.alignmentPadding)))))

def RdbHeader.read (bs : List UInt8) : RdbHeader where
  magic := ofBytes (bs.take 4)
  version := ofBytes ((bs.drop 4).take 4)
  flags := ofBytes ((bs.drop 8).take 4)
  dataSize := ofBytes ((bs.drop 12).take 4)
  recordCount := ofBytes ((bs.drop 16).take 4)
  saveTime := ofBytes ((bs.drop 20).take 8)
  alignmentPadding := ofBytes ((bs.drop 28).take 4)

/-- `rdb_footer_t`, packed. -/
structure RdbFooter where
  eofMarker : List UInt8
  crc64 : ℕ
  footerSize : ℕ
  alignmentPadding : ℕ

def RdbFooter.bytes (f : RdbFooter) : List UInt8 :=
  f.eofMarker ++ (toBytes 8 f.crc64 ++ (toBytes 4 f.footerSize ++ toBytes 4 f.alignmentPadding))

def RdbFooter.read (bs : List UInt8) : RdbFooter where
  eofMarker := bs.take 4
  crc64 := ofBytes ((bs.drop 4).take 8)
  footerSize := ofBytes ((bs.drop 12).take 4)
  alignmentPadding := ofBytes ((bs.drop 16).take 4)

/-- The files of the system by their paths. -/
abbrev Files := CString → Option (List UInt8)

/-- A stream opened with mode `"wb"`: what it has written and where it stands. -/
structure Stream where
  content : List UInt8
  pos : ℕ

namespace Stream

/-- `fopen(.., "wb")` empties the file. -/
def fopen : Stream := ⟨[], 0⟩

/-- Every write succeeds: a failure, which `kvs_rdb_save` does not look for, is not modelled. -/
def fwrite (fp : Stream) (bs : List UInt8) : Stream :=
  ⟨fp.content.take fp.pos ++ (bs ++ fp.content.drop (fp.pos + bs.length)), fp.pos + bs.length⟩

def fseek (fp : Stream) (pos : ℕ) : Stream := { fp with pos := pos }

/-- The stream cannot be read: `fread` gives no item and leaves the position as it is. -/
def fread (_ : Stream) (_ : ℕ) : List UInt8 := []

end Stream

/-- The engines that a snapshot covers. -/
structure Engines where
  array : KvsArray
  rbtree : Rbtree
  hash : HashTable

/-- A record of the file: type 0 for the array, 1 for the tree, 2 for the hash table. -/
structure RdbRecord where
  type : UInt8
  key : CString
  value : CString
  deriving DecidableEq

/-- The lengths are kept in a `uint16_t`, and so many bytes of key and value are written. -/
def RdbRecord.bytes (r : RdbRecord) : List UInt8 :=
  r.type :: (toBytes 2 r.key.length ++ (r.key.bytes.take (r.key.length % 2 ^ 16) ++
    (toBytes 2 r.value.length ++ r.value.bytes.take (r.value.length % 2 ^ 16))))

/-- The loop of `kvs_rdb_save` over the slots of the array, from slot `i` on with `n` to go. -/
def arrayRecords (table : ℕ → ArrayItem) (i : ℕ) : ℕ → Option (List RdbRecord)
  | 0 => some []
  | n + 1 =>
    if kvsArraySize ≤ i then none
    else
      match (table i).key, (table i).value with
      | .null, _ => arrayRecords table (i + 1) n
      | .str key, .str value => (arrayRecords table (i + 1) n).map (⟨0, key, value⟩ :: ·)
      | _, _ => none

/-- `kvs_rbtree_traverse` with `rbtree_save_callback`: only the root is visited. -/
def rbtreeRecords (T : Rbtree) : Option (List RdbRecord) :=
  if T.root ≠ null ∧ T.root ≠ T.nil then
    match T.value T.root with
    | .str value => some [⟨1, T.key T.root, value⟩]
    | _ => none
  else some []

def HashNode.record (node : HashNode) : Option RdbRecord :=
  match node.value with
  | .str value => some ⟨2, node.key, value⟩
  | _ => none

/-- `kvs_hash_traverse` with `hash_save_callback`. -/
def hashRecords (h : HashTable) : Option (List RdbRecord) :=
  ((List.finRange maxTableSize).mapM fun i =>
    (h.nodes i).bind fun chain => chain.mapM HashNode.record).map List.flatten

/-- What the system answers to `kvs_rdb_save`: whether the file opens for writing, whether the
files of the backup open, whether there is memory for the checksum, the time, and the local time
as it stands in the name of the backup. -/
structure SaveIO where
  opens : Bool
  backupOpens : Bool
  room : Bool
  now : ℕ
  stamp : CString

/-- The name of the backup made at a time. -/
def backupFile (cfg : RdbConfig) (stamp : CString) : CString :=
  .read (cfg.backupDir.bytes ++ (text ['/', 'k', 'v', 's', '_', 'b', 'a', 'c', 'k', 'u', 'p', '_'] ++
    (stamp.bytes ++ text ['.', 'r', 'd', 'b'])))

/-- Copies the file; a backup that is the file itself is emptied before it is read. -/
def rdbCreateBackup (cfg : RdbConfig) (io : SaveIO) (fs : Files) (filename : CString) :
    ℤ × Files :=
  if !cfg.rdbBackup then (0, fs)
  else if maxPathLen - 50 ≤ cfg.backupDir.length then (-1, fs)
  else if maxPathLen ≤ (backupFile cfg io.stamp).length then (-1, fs)
  else if !io.backupOpens then (-1, fs)
  else
    let emptied := Function.update fs (backupFile cfg io.stamp) (some [])
    (0, Function.update emptied (backupFile cfg io.stamp) (emptied filename))

/-- The header of a save before the data is known. -/
def saveHeader (cfg : RdbConfig) (io : SaveIO) : RdbHeader where
  magic := rdbMagic
  version := rdbVersion
  flags := (if cfg.rdbCompression then 1 else 0) + (if cfg.rdbCrc64 then 2 else 0)
  dataSize := 0
  recordCount := 0
  saveTime := io.now
  alignmentPadding := 0

/-- The padding to the next multiple of `RDB_ALIGNMENT`, and the footer with a checksum. -/
def saveFooter (fp : Stream) (crc : UInt64) : Stream :=
  let padding := rdbAlignSize fp.pos - fp.pos
  let fp := if 0 < padding then fp.fwrite (List.replicate padding 0) else fp
  fp.fwrite (RdbFooter.bytes ⟨rdbEofMarker, crc.toNat, rdbFooterSize, 0⟩)

/-- The part of `kvs_rdb_save` behind `fopen`, with the records of the three engines: the code it
returns and what it leaves in the file. -/
def saveRecords (cfg : RdbConfig) (io : SaveIO) (array others : List RdbRecord) :
    ℤ × List UInt8 :=
  let header := saveHeader cfg io
  let fp := Stream.fopen.fwrite header.bytes
  let dataStart := fp.pos
  let fp := (array ++ others).foldl (fun fp r => fp.fwrite r.bytes) fp
  let header : RdbHeader :=
    { header with dataSize := (fp.pos - dataStart) % 2 ^ 32, recordCount := array.length }
  let finish (fp : Stream) : ℤ × List UInt8 := (0, ((fp.fseek 0).fwrite header.bytes).content)
  if cfg.rdbCrc64 then
    let fp := fp.fseek dataStart
    if !io.room then (-1, fp.content)
    else
      let buffer := fp.fread header.dataSize
      if buffer.length ≠ header.dataSize then (-1, fp.content)
      else finish (saveFooter fp (rdbCalculateCrc64 buffer))
  else finish fp

def kvsRdbSave (cfg : RdbConfig) (io : SaveIO) (e : Engines) (fs : Files) (filename : CString) :
    Option (ℤ × Files) :=
  if !cfg.rdbEnabled then some (0, fs)
  else
    let fs :=
      if cfg.rdbBackup ∧ (fs filename).isSome then (rdbCreateBackup cfg io fs filename).2 else fs
    if !io.opens then some (-1, fs)
    else
      (arrayRecords e.array.table 0 e.array.total).bind fun array =>
      (rbtreeRecords e.rbtree).bind fun tree =>
      (hashRecords e.hash).bind fun hash =>
      let r := saveRecords cfg io array (tree ++ hash)
      some (r.1, Function.update fs filename (some r.2))

/-- `rdb_verify_file_integrity`; `room` tells whether there is memory for the data. -/
def rdbVerifyFileIntegrity (cfg : RdbConfig) (room : Bool) (file : Option (List UInt8)) : ℤ :=
  match file with
  | none => -1
  | some file =>
    let header := RdbHeader.read file
    if file.length < rdbHeaderBytes then -1
    else if header.magic ≠ rdbMagic then -1
    else if header.version ≠ rdbVersion then -1
    else if cfg.rdbCrc64 then
      let footer := RdbFooter.read (file.drop (file.length - rdbFooterSize))
      let data := (file.drop rdbHeaderBytes).take header.dataSize
      if file.length < rdbHeaderBytes + header.dataSize + rdbFooterSize then -1
      else if footer.eofMarker ≠ rdbEofMarker then -1
      else if footer.footerSize ≠ rdbFooterSize then -1
      else if !room then -1
      else if data.length ≠ header.dataSize then -1
      else if (rdbCalculateCrc64 data).toNat ≠ footer.crc64 then -1
      else 0
    else 0

/-- `fread` of `n` bytes: a read that meets the end of the file takes what is left. -/
def freadBytes (n : ℕ) (bs : List UInt8) : Option (List UInt8) × List UInt8 :=
  if bs.length < n then (none, []) else (some (bs.take n), bs.drop n)

/-- One round of the loop of `kvs_rdb_load` from the unread bytes on, with `none` where the loop
is left. `room` is what `malloc` answers for the key and the value. -/
def loadRecord (room : Bool × Bool) (bs : List UInt8) : Option RdbRecord × List UInt8 :=
  match freadBytes 1 bs with
  | (none, bs) => (none, bs)
  | (some type, bs) =>
  match freadBytes 2 bs with
  | (none, bs) => (none, bs)
  | (some keyLen, bs) =>
  if ofBytes keyLen = 0 ∨ 1024 < ofBytes keyLen then (none, bs)
  else if !room.1 then (none, bs)
  else
  match freadBytes (ofBytes keyLen) bs with
  | (none, bs) => (none, bs)
  | (some key, bs) =>
  match freadBytes 2 bs with
  | (none, bs) => (none, bs)
  | (some valLen, bs) =>
  if 65535 < ofBytes valLen then (none, bs)
  else if !room.2 then (none, bs)
  else
  match freadBytes (ofBytes valLen) bs with
  | (none, bs) => (none, bs)
  | (some val, bs) => (some ⟨type.headD 0, .read key, .read val⟩, bs)

/-- The loop of `kvs_rdb_load` with `left` bytes of data to go: the records that it has read and
the bytes that are left unread. A read that met the end of the file has left the loop, so
`feof` is not asked. -/
def loadLoop (room : ℕ → Bool × Bool) : ℕ → ℕ → List UInt8 → ℕ → List RdbRecord × List UInt8
  | 0, _, bs, _ => ([], bs)
  | n + 1, i, bs, left =>
    if left = 0 then ([], bs)
    else
      match loadRecord (room i) bs with
      | (none, bs') => ([], bs')
      | (some r, bs') =>
        let rest := loadLoop room n (i + 1) bs' (left - (bs.length - bs'.length))
        (r :: rest.1, rest.2)

/-- What the system answers to `kvs_rdb_load`: whether there is memory to check the file, and for
the key and the value of each record. -/
structure LoadIO where
  verifyRoom : Bool
  room : ℕ → Bool × Bool

/-- The return value of `kvs_rdb_load`, the records whose keys and values it has passed to the
`set` function of an engine, in order, and the number of bytes it has read behind the header. -/
structure Loaded where
  code : ℤ
  calls : List RdbRecord
  consumed : ℕ

def kvsRdbLoad (cfg : RdbConfig) (io : LoadIO) (file : Option (List UInt8)) : Loaded :=
  if !cfg.rdbEnabled then ⟨0, [], 0⟩
  else if rdbVerifyFileIntegrity cfg io.verifyRoom file ≠ 0 then ⟨-1, [], 0⟩
  else
    match file with
    | none => ⟨-1, [], 0⟩
    | some file =>
      let bs := file.drop rdbHeaderBytes
      let r := loadLoop io.room bs.length 0 bs (RdbHeader.read file).dataSize
      if file.length < rdbHeaderBytes then ⟨-3, [], 0⟩
      else ⟨0, r.1.filter fun x => x.type ≤ 2, bs.length - r.2.length⟩

end KvStore
