import KvStore.Protocol.Header

/-! The packets that the Go clients under `kvs-client` build, and what `parse_tcp_header` makes of
them. -/
namespace KvStore
open Endian

/-- `copy(packet[i:], data)` for data that fits. -/
def copyAt (packet : List UInt8) (i : ℕ) (data : List UInt8) : List UInt8 :=
  packet.take i ++ (data ++ packet.drop (i + data.length))

/-- The packet of a client that writes its header with `putUint32`. -/
def clientPacket (putUint32 : UInt32 → List UInt8) (cmdType seqId : UInt32) (data : List UInt8) :
    List UInt8 :=
  let packet := List.replicate (tcpHeaderSize + data.length) 0
  let packet := copyAt packet 0 (putUint32 (.ofNat tcpMagic))
  let packet := copyAt packet 4 (putUint32 (.ofNat tcpVersion))
  let packet := copyAt packet 8 (putUint32 cmdType)
  let packet := copyAt packet 12 (putUint32 (.ofNat data.length))
  let packet := copyAt packet 16 (putUint32 seqId)
  let packet := copyAt packet 20 (putUint32 0)
  if 0 < data.length then copyAt packet tcpHeaderSize data else packet

/-- `binary.LittleEndian.PutUint32`. -/
def littleEndian (v : UInt32) : List UInt8 := toBytes 4 v.toNat

/-- `binary.BigEndian.PutUint32`. -/
def bigEndian (v : UInt32) : List UInt8 := toNet 4 v.toNat

theorem length_littleEndian (v : UInt32) : (littleEndian v).length = 4 := length_toBytes 4 _

theorem length_bigEndian (v : UInt32) : (bigEndian v).length = 4 := length_toNet 4 _

/-- `buildTcpPacket` of `tcp-header-client.go`. -/
def TcpHeaderClient.buildTcpPacket : UInt32 → UInt32 → List UInt8 → List UInt8 :=
  clientPacket littleEndian

/-- `TcpClient` of `enhanced-tcp-client.go`, without its connection. -/
structure TcpClient where
  seqId : UInt32

/-- `buildPacket` of `enhanced-tcp-client.go`. -/
def TcpClient.buildPacket (c : TcpClient) (cmdType : UInt32) (data : List UInt8) : List UInt8 :=
  clientPacket littleEndian cmdType c.seqId data

/-- `buildTcpPacket` of `skiptable_bench.go`. -/
def SkiptableBench.buildTcpPacket : UInt32 → UInt32 → List UInt8 → List UInt8 :=
  clientPacket bigEndian

theorem copyAt_append {a data : List UInt8} {i n : ℕ} (h : a.length = i) :
    copyAt (a ++ List.replicate n 0) i data =
      (a ++ data) ++ List.replicate (n - data.length) 0 := by
  subst h
  rw [copyAt, List.take_left, ← List.drop_drop, List.drop_left, List.drop_replicate,
    List.append_assoc]

/-- The header field by field, and the data behind it. -/
theorem clientPacket_eq {put : UInt32 → List UInt8} (hput : ∀ v, (put v).length = 4)
    (cmdType seqId : UInt32) (data : List UInt8) :
    clientPacket put cmdType seqId data =
      put (.ofNat tcpMagic) ++ (put (.ofNat tcpVersion) ++ (put cmdType ++
        (put (.ofNat data.length) ++ (put seqId ++ (put 0 ++ data))))) := by
  have hstart : List.replicate (tcpHeaderSize + data.length) (0 : UInt8) =
      [] ++ List.replicate (tcpHeaderSize + data.length) 0 := rfl
  have hlast : tcpHeaderSize + data.length - 4 - 4 - 4 - 4 - 4 - 4 = data.length := by
    rw [tcpHeaderSize]
    omega
  have hsize : (put (.ofNat tcpMagic) ++ put (.ofNat tcpVersion) ++ put cmdType ++
      put (.ofNat data.length) ++ put seqId ++ put 0).length = tcpHeaderSize := by
    simp only [List.length_append, hput, tcpHeaderSize]
  rw [clientPacket, hstart, copyAt_append List.length_nil, hput, List.nil_append]
  rw [copyAt_append (hput _), hput, copyAt_append (by simp [hput]), hput,
    copyAt_append (by simp [hput]), hput, copyAt_append (by simp [hput]), hput,
    copyAt_append (by simp [hput]), hput, hlast, copyAt_append hsize, Nat.sub_self,
    List.replicate_zero, List.append_nil]
  by_cases hdata : 0 < data.length
  · rw [if_pos hdata]
    simp only [List.append_assoc]
  · obtain rfl : data = [] := List.length_eq_zero_iff.mp (Nat.eq_zero_of_not_pos hdata)
    rw [if_neg hdata]
    simp only [List.length_nil, List.replicate_zero, List.append_nil, List.append_assoc]

/-- The server takes the packet for this request. -/
structure Understood (packet : List UInt8) (cmdType seqId : UInt32) (data : List UInt8) : Prop where
  header : parseTcpHeader packet =
    (0, ⟨tcpMagic, tcpVersion, cmdType.toNat, data.length, seqId.toNat, 0⟩)
  payload : packet.drop tcpHeaderSize = data

theorem buildTcpResponse_understood (cmdType seqId : UInt32) {data : List UInt8}
    (hdata : data.length ≤ 1024) :
    Understood (buildTcpResponse cmdType.toNat seqId.toNat data) cmdType seqId data := by
  have hcmd := cmdType.toNat_lt
  have hseq := seqId.toNat_lt
  have hread : TcpHeader.read (buildTcpResponse cmdType.toNat seqId.toNat data) =
      ⟨tcpMagic, tcpVersion, cmdType.toNat, data.length, seqId.toNat, 0⟩ := by
    rw [buildTcpResponse, TcpHeader.read_bytes]
    simp only [Nat.mod_eq_of_lt hcmd, Nat.mod_eq_of_lt hseq,
      Nat.mod_eq_of_lt (show data.length < 2 ^ 32 by omega)]
    rfl
  refine ⟨?_, ?_⟩
  · simp [parseTcpHeader, hread, hdata]
  · rw [buildTcpResponse, List.drop_left' (TcpHeader.length_bytes _)]

/-- A client that writes in network order is understood. -/
theorem SkiptableBench.buildTcpPacket_understood (cmdType seqId : UInt32) {data : List UInt8}
    (hdata : data.length ≤ 1024) :
    Understood (SkiptableBench.buildTcpPacket cmdType seqId data) cmdType seqId data := by
  have hlen : (UInt32.ofNat data.length).toNat = data.length := by
    rw [UInt32.toNat_ofNat']
    omega
  have hpacket : SkiptableBench.buildTcpPacket cmdType seqId data =
      buildTcpResponse cmdType.toNat seqId.toNat data := by
    rw [buildTcpPacket, clientPacket_eq length_bigEndian]
    simp only [buildTcpResponse, bigEndian, hlen, TcpHeader.bytes, List.append_assoc]
    rfl
  rw [hpacket]
  exact buildTcpResponse_understood cmdType seqId hdata

/-- With its bytes the other way round the magic number is another one. -/
theorem parseTcpHeader_littleEndian (cmdType seqId : UInt32) (data : List UInt8) :
    (parseTcpHeader (clientPacket littleEndian cmdType seqId data)).1 = -2 := by
  have hmagic : (TcpHeader.read (clientPacket littleEndian cmdType seqId data)).magic ≠
      tcpMagic := by
    rw [clientPacket_eq length_littleEndian, TcpHeader.read]
    dsimp only
    rw [List.take_left' (length_littleEndian _)]
    decide
  rw [parseTcpHeader, if_pos hmagic]

/-- The server rejects every packet of the two clients. -/
theorem goClients_never_understood (cmdType : UInt32) (data : List UInt8) :
    (∀ seqId, ¬ Understood (TcpHeaderClient.buildTcpPacket cmdType seqId data) cmdType seqId data) ∧
    ∀ c : TcpClient, ¬ Understood (c.buildPacket cmdType data) cmdType c.seqId data := by
  constructor
  · intro seqId h
    have hparse := parseTcpHeader_littleEndian cmdType seqId data
    rw [show clientPacket littleEndian cmdType seqId data =
      TcpHeaderClient.buildTcpPacket cmdType seqId data from rfl, h.header] at hparse
    cases hparse
  · intro c h
    have hparse := parseTcpHeader_littleEndian cmdType c.seqId data
    rw [show clientPacket littleEndian cmdType c.seqId data = c.buildPacket cmdType data from rfl,
      h.header] at hparse
    cases hparse

/-- `SET a b`, number one. -/
theorem goClients_rejected :
    ¬ Understood (TcpHeaderClient.buildTcpPacket 1 1 [97, 32, 98]) 1 1 [97, 32, 98] := by
  intro h
  have hparse := parseTcpHeader_littleEndian 1 1 [97, 32, 98]
  rw [show clientPacket littleEndian 1 1 [97, 32, 98] =
    TcpHeaderClient.buildTcpPacket 1 1 [97, 32, 98] from rfl, h.header] at hparse
  cases hparse

end KvStore
