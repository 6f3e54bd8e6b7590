import KvStore.Protocol.Header
import KvStore.Rdb.Model
import KvStore.Skip.Range

/-! `kvs_tcp_protocol` of `kvstore.c`: one request packet in a buffer, the command on the engines,
and the reply. A request gives `none` when it does not come back: an engine does not, a copy
overflows the result, or a byte outside the buffer is touched. -/
namespace KvStore
open Endian

/-- The command types of `kvstore.h`. -/
inductive Cmd
  | set | get | del | mod | exist | save
  | rset | rget | rdel | rmod | rexist
  | hset | hget | hdel | hmod | hexist
  | zadd | zrem | zrange
  deriving DecidableEq

def Cmd.code : Cmd → ℕ
  | set => 1
  | get => 2
  | del => 3
  | mod => 4
  | exist => 5
  | save => 6
  | rset => 11
  | rget => 12
  | rdel => 13
  | rmod => 14
  | rexist => 15
  | hset => 21
  | hget => 22
  | hdel => 23
  | hmod => 24
  | hexist => 25
  | zadd => 31
  | zrem => 32
  | zrange => 33

def Cmd.ofCode : ℕ → Option Cmd
  | 1 => some set
  | 2 => some get
  | 3 => some del
  | 4 => some mod
  | 5 => some exist
  | 6 => some save
  | 11 => some rset
  | 12 => some rget
  | 13 => some rdel
  | 14 => some rmod
  | 15 => some rexist
  | 21 => some hset
  | 22 => some hget
  | 23 => some hdel
  | 24 => some hmod
  | 25 => some hexist
  | 31 => some zadd
  | 32 => some zrem
  | 33 => some zrange
  | _ => none

@[simp] theorem Cmd.ofCode_code (c : Cmd) : ofCode c.code = some c := by
  cases c <;> rfl

/-- The engines, the skip list and the files. -/
structure Store (S : Type*) extends Engines where
  skiptable : SkipList S
  files : Files

/-- What the system answers to one request: memory for the engines, the outcome of
`randomLevel`, and the answers to a save. -/
structure Host where
  array : ArrayAlloc
  node : NodeAlloc
  hash : HashAlloc
  member : Ptr
  level : ℕ
  save : SaveIO

/-- Scores as the C library reads and prints them: `atof`, `sscanf` with `"%lf %lf"`, and
`"%.2f"`. -/
structure Scores (S : Type*) where
  atof : CString → S
  sscanf : CString → Option (S × S)
  format : S → CString

/-- The comparisons of scores in the skip list. No order is asked for: a `double` that is no number
compares with nothing. -/
class Comparisons (S : Type*) where
  [lt : LT S]
  [le : LE S]
  [beq : BEq S]
  [decidableLT : DecidableLT S]
  [decidableLE : DecidableLE S]

namespace Comparisons

variable {S : Type*} [h : Comparisons S]

-- a type with instances of its own keeps these
instance (priority := 50) toLT : LT S := h.lt
instance (priority := 50) toLE : LE S := h.le
instance (priority := 50) toBEq : BEq S := h.beq
instance (priority := 50) toDecidableLT : DecidableLT S := h.decidableLT
instance (priority := 50) toDecidableLE : DecidableLE S := h.decidableLE

end Comparisons

instance (priority := 50) Comparisons.ofLinearOrder {S : Type*} [LinearOrder S] : Comparisons S where

/-- The settings that `kvs_tcp_protocol` looks at. -/
structure ServerConfig where
  rdb : RdbConfig
  rdbFile : CString

/-- `strchr(s, c)`, as the index of what it points to. -/
def CString.strchr (s : CString) (c : UInt8) : Option ℕ := s.bytes.findIdx? (· = c)

def space : UInt8 := 32

def okText : List UInt8 := text ['O', 'K']
def existText : List UInt8 := text ['E', 'X', 'I', 'S', 'T']
def noExistText : List UInt8 := text ['N', 'O', ' ', 'E', 'X', 'I', 'S', 'T']
def errorText : List UInt8 := text ['E', 'R', 'R', 'O', 'R']
def savedText : List UInt8 := text ['S', 'A', 'V', 'E', 'D']
def saveErrorText : List UInt8 := text ['S', 'A', 'V', 'E', ' ', 'E', 'R', 'R', 'O', 'R']
def unknownText : List UInt8 :=
  text ['U', 'N', 'K', 'N', 'O', 'W', 'N', ' ', 'C', 'O', 'M', 'M', 'A', 'N', 'D']

/-- `sizeof(result)`. -/
def resultSize : ℕ := 1024

/-- The text for a return code that is negative, zero or positive. -/
def retText (ret : ℤ) (positive : List UInt8) : List UInt8 :=
  if ret < 0 then errorText else if ret = 0 then okText else positive

/-- The text for the result of a `get`, copied with `strcpy`. -/
def getText : CharPtr → Option (List UInt8)
  | .null => some noExistText
  | .str v => if v.length < resultSize then some v.bytes else none
  | .uninit => none
  | .freed => none

section Commands

variable {S : Type*} [Comparisons S] (P : Scores S) (n : ℕ) (w : Host) (s : Store S)

/-- The value of `ZADD` is cut at its space, behind which the score stands. -/
def runZadd (key value : Option CString) : Option (List UInt8 × Store S) :=
  match key, value with
  | some key, some value =>
    match value.strchr space with
    | none => some (errorText, s)
    | some i =>
      (kvsSkiptableZadd n s.skiptable w.member w.level key (value.truncate i)
        (P.atof (.read (value.bytes.drop (i + 1))))).bind fun r =>
      some (retText r.1 existText, { s with skiptable := r.2 })
  | _, _ => some (errorText, s)

def runZrem (key : Option CString) : Option (List UInt8 × Store S) :=
  match key with
  | none => some (errorText, s)
  | some key =>
    (kvsSkiptableZrem n s.skiptable key).bind fun r =>
    some (if r.1 = 0 then okText else noExistText, { s with skiptable := r.2 })

def zrangeLine (e : ZRangeEntry S) : List UInt8 :=
  e.key.bytes ++ (space :: e.value.bytes ++ (space :: (P.format e.score).bytes ++ [10]))

/-- The loop over the entries with `result` written so far. A line that does not fit is cut off
by `snprintf`, and ends the loop. -/
def zrangeText : List (ZRangeEntry S) → List UInt8 → List UInt8
  | [], result => result
  | e :: es, result =>
    if resultSize - result.length ≤ (zrangeLine P e).length then
      result ++ (zrangeLine P e).take (resultSize - result.length - 1)
    else zrangeText es (result ++ zrangeLine P e)

def runZrange (key value : Option CString) : Option (List UInt8 × Store S) :=
  match key, value with
  | some _, some value =>
    match P.sscanf value with
    | none => some (errorText, s)
    | some (min, max) =>
      (kvsSkiptableZrangeEntries n s.skiptable min max 100).bind fun entries =>
      some (zrangeText P entries [], s)
  | _, _ => some (errorText, s)

def runSave (cfg : ServerConfig) : Option (List UInt8 × Store S) :=
  (kvsRdbSave cfg.rdb w.save s.toEngines s.files cfg.rdbFile).bind fun r =>
  some (if r.1 < 0 then saveErrorText else savedText, { s with files := r.2 })

/-- The `switch` over the command type: the text of the reply and the store behind it. -/
def runCommand (cfg : ServerConfig) (cmd : Option Cmd) (key value : Option CString) :
    Option (List UInt8 × Store S) :=
  match cmd with
  | some .set =>
    (kvsArraySet s.array w.array key value).bind fun r =>
    some (retText r.1 existText, { s with array := r.2 })
  | some .get =>
    (kvsArrayGet s.array key).bind fun r =>
    (getText r.1).bind fun result => some (result, { s with array := r.2 })
  | some .del =>
    (kvsArrayDel s.array key).bind fun r =>
    some (retText r.1 noExistText, { s with array := r.2 })
  | some .mod =>
    (kvsArrayMod s.array w.array.value key value).bind fun r =>
    some (retText r.1 noExistText, { s with array := r.2 })
  | some .exist =>
    (kvsArrayExist s.array key).bind fun r =>
    some (if r.1 = 0 then existText else noExistText, { s with array := r.2 })
  | some .rset =>
    (kvsRbtreeSet n s.rbtree w.node key value).bind fun r =>
    some (retText r.1 existText, { s with rbtree := r.2 })
  | some .rget =>
    (kvsRbtreeGet n s.rbtree key).bind fun v =>
    (getText v).bind fun result => some (result, s)
  | some .hset =>
    (kvsHashSet s.hash w.hash key value).bind fun r =>
    some (retText r.1 existText, { s with hash := r.2 })
  | some .hget =>
    (kvsHashGet s.hash key).bind fun v =>
    (getText v).bind fun result => some (result, s)
  | some .zadd => runZadd P n w s key value
  | some .zrem => runZrem n s key
  | some .zrange => runZrange P n s key value
  | some .save => runSave w s cfg
  | _ => some (unknownText, s)

end Commands

/-- The payload of a packet: what its buffer becomes, and where `key` and `value` point. The NUL
behind the payload is written whatever stands there. -/
structure Payload where
  buffer : List UInt8
  key : Option CString
  value : Option CString

def splitPayload (buffer : List UInt8) (dataLen : ℕ) : Option Payload :=
  if dataLen = 0 then some ⟨buffer, none, none⟩
  else if buffer.length ≤ tcpHeaderSize + dataLen then none
  else
    let buffer := buffer.set (tcpHeaderSize + dataLen) 0
    let data := buffer.drop tcpHeaderSize
    match (CString.read data).strchr space with
    | none => some ⟨buffer, some (.read data), none⟩
    | some i =>
      let buffer := buffer.set (tcpHeaderSize + i) 0
      let data := buffer.drop tcpHeaderSize
      some ⟨buffer, some (.read data), some (.read (data.drop (i + 1)))⟩

/-- `ZADD` writes a NUL over the space in its value. -/
def Payload.afterCommand (p : Payload) (cmd : Option Cmd) : List UInt8 :=
  match cmd, p.key, p.value with
  | some .zadd, some key, some value =>
    match value.strchr space with
    | some i => p.buffer.set (tcpHeaderSize + key.length + 1 + i) 0
    | none => p.buffer
  | _, _, _ => p.buffer

/-- What a request leaves: the return value, the buffer, the bytes of the response, the store. -/
structure Handled (S : Type*) where
  ret : ℤ
  buffer : List UInt8
  response : List UInt8
  store : Store S

/-- `buffer` is the memory from the packet on, `len` the number of its bytes that were received;
`n` bounds the rounds of the loops in the tree and the skip list. -/
def kvsTcpProtocol {S : Type*} [Comparisons S] (P : Scores S) (cfg : ServerConfig) (n : ℕ)
    (w : Host) (s : Store S) (buffer : List UInt8) (len : ℕ) : Option (Handled S) :=
  if len < tcpHeaderSize then some ⟨-1, buffer, [], s⟩
  else if buffer.length < len then none
  else
    let r := parseTcpHeader buffer
    let header := r.2
    if r.1 < 0 then some ⟨r.1, buffer, [], s⟩
    else if len < tcpHeaderSize + header.dataLen then some ⟨-5, buffer, [], s⟩
    else
      (splitPayload buffer header.dataLen).bind fun p =>
      let cmd := Cmd.ofCode header.cmdType
      (runCommand P n w s cfg cmd p.key p.value).bind fun r =>
      let response := buildTcpResponse header.cmdType header.seqId r.1
      some ⟨response.length, p.afterCommand cmd, response, r.2⟩

end KvStore
