import KvStore.Lib.Endian
import Mathlib.Data.UInt
import Mathlib.Tactic.Common

/-! The header of the wire protocol: `parse_tcp_header` and `build_tcp_response` of
`kvstore.c`. -/
namespace KvStore
open Endian

def tcpMagic : ℕ := 0x5453564B
def tcpVersion : ℕ := 1
def tcpHeaderSize : ℕ := 24

/-- `tcp_header_t`. -/
structure TcpHeader where
  magic : ℕ
  version : ℕ
  cmdType : ℕ
  dataLen : ℕ
  seqId : ℕ
  flags : ℕ
  deriving DecidableEq

/-- The six fields from the front of a buffer, each in network order. -/
def TcpHeader.read (buffer : List UInt8) : TcpHeader where
  magic := ofNet (buffer.take 4)
  version := ofNet ((buffer.drop 4).take 4)
  cmdType := ofNet ((buffer.drop 8).take 4)
  dataLen := ofNet ((buffer.drop 12).take 4)
  seqId := ofNet ((buffer.drop 16).take 4)
  flags := ofNet ((buffer.drop 20).take 4)

def TcpHeader.bytes (h : TcpHeader) : List UInt8 :=
  toNet 4 h.magic ++ (toNet 4 h.version ++ (toNet 4 h.cmdType ++ (toNet 4 h.dataLen ++
    (toNet 4 h.seqId ++ toNet 4 h.flags))))

/-- The return value beside the header that is filled in. -/
def parseTcpHeader (buffer : List UInt8) : ℤ × TcpHeader :=
  let header := TcpHeader.read buffer
  if header.magic ≠ tcpMagic then (-2, header)
  else if header.version ≠ tcpVersion then (-3, header)
  else if 1024 < header.dataLen then (-4, header)
  else (0, header)

/-- What is written to the response; the return value is its length. -/
def buildTcpResponse (cmdType seqId : ℕ) (data : List UInt8) : List UInt8 :=
  TcpHeader.bytes ⟨tcpMagic, tcpVersion, cmdType, data.length, seqId, 0⟩ ++ data

@[simp] theorem TcpHeader.length_bytes (h : TcpHeader) : h.bytes.length = tcpHeaderSize := by
  simp [bytes, tcpHeaderSize]

/-- Every field comes back up to its width. -/
theorem TcpHeader.read_bytes (h : TcpHeader) (rest : List UInt8) :
    TcpHeader.read (h.bytes ++ rest) =
      ⟨h.magic % 2 ^ 32, h.version % 2 ^ 32, h.cmdType % 2 ^ 32, h.dataLen % 2 ^ 32,
        h.seqId % 2 ^ 32, h.flags % 2 ^ 32⟩ := by
  simp [read, bytes, List.append_assoc, List.drop_append, List.drop_eq_nil_of_le, ofNet_toNet]

/-- Only the first bytes of a buffer are parsed. -/
theorem TcpHeader.read_take (buffer : List UInt8) :
    TcpHeader.read (buffer.take tcpHeaderSize) = TcpHeader.read buffer := by
  simp [read, tcpHeaderSize, List.drop_take, List.take_take]

theorem parseTcpHeader_take (buffer : List UInt8) :
    parseTcpHeader (buffer.take tcpHeaderSize) = parseTcpHeader buffer := by
  rw [parseTcpHeader, parseTcpHeader, TcpHeader.read_take]

theorem parseTcpHeader_snd (buffer : List UInt8) :
    (parseTcpHeader buffer).2 = TcpHeader.read buffer := by
  unfold parseTcpHeader
  dsimp only
  split_ifs <;> rfl

/-- A buffer that starts with a NUL holds no packet. -/
theorem parseTcpHeader_nul {buffer : List UInt8} (hlen : tcpHeaderSize ≤ buffer.length + 1) :
    (parseTcpHeader (0 :: buffer)).1 < 0 := by
  have hmagic : (TcpHeader.read (0 :: buffer)).magic ≠ tcpMagic := by
    intro h
    have hfour : ((0 :: buffer).take 4).length = 4 := by
      rw [List.length_take, List.length_cons]
      rw [tcpHeaderSize] at hlen
      omega
    have hbytes := toNet_ofNet ((0 :: buffer).take 4)
    rw [hfour, show ofNet ((0 :: buffer).take 4) = tcpMagic from h, List.take_succ_cons] at hbytes
    have hfirst : toNet 4 tcpMagic = [84, 83, 86, 75] := by decide
    rw [hfirst] at hbytes
    cases hbytes
  simp [parseTcpHeader, hmagic]

/-- Four bytes of a buffer, read and written again. -/
theorem toNet_ofNet_word {buffer : List UInt8} {k : ℕ} (h : k + 4 ≤ buffer.length) :
    toNet 4 (ofNet ((buffer.drop k).take 4)) = (buffer.drop k).take 4 := by
  have hfour : ((buffer.drop k).take 4).length = 4 := by
    rw [List.length_take, List.length_drop]
    omega
  have hbytes := toNet_ofNet ((buffer.drop k).take 4)
  rwa [hfour] at hbytes

/-- A header that is read from a buffer has the bytes in front of its flags. -/
theorem TcpHeader.bytes_read {buffer : List UInt8} (h : tcpHeaderSize ≤ buffer.length) (flags : ℕ) :
    TcpHeader.bytes { TcpHeader.read buffer with flags := flags } =
      buffer.take 20 ++ toNet 4 flags := by
  rw [tcpHeaderSize] at h
  have hfirst : toNet 4 (ofNet (buffer.take 4)) = buffer.take 4 :=
    toNet_ofNet_word (k := 0) (by omega)
  have htake : buffer.take 20 = buffer.take 4 ++ ((buffer.drop 4).take 4 ++
      ((buffer.drop 8).take 4 ++ ((buffer.drop 12).take 4 ++ (buffer.drop 16).take 4))) := by
    rw [← List.append_assoc, ← List.append_assoc, ← List.append_assoc, ← List.take_add,
      ← List.take_add, ← List.take_add, ← List.take_add]
  dsimp only [bytes, read]
  rw [hfirst, toNet_ofNet_word (by omega), toNet_ofNet_word (by omega), toNet_ofNet_word (by omega),
    toNet_ofNet_word (by omega), htake]
  simp only [List.append_assoc]

end KvStore
