import KvStore.Protocol.Clients

/-! `parse_tcp_header` and `build_tcp_response` undo each other. A response has no flags, so the flags
of a packet do not come back. -/
namespace KvStore
open Endian

/-- The packet with the flags set to 0. -/
def clearFlags (packet : List UInt8) : List UInt8 :=
  packet.take 20 ++ (toNet 4 0 ++ packet.drop tcpHeaderSize)

theorem parseTcpHeader_accepts {buffer : List UInt8} {header : TcpHeader}
    (h : parseTcpHeader buffer = (0, header)) :
    header = TcpHeader.read buffer ∧ header.magic = tcpMagic ∧ header.version = tcpVersion := by
  have hread : header = TcpHeader.read buffer := by
    rw [← parseTcpHeader_snd, h]
  unfold parseTcpHeader at h
  dsimp only at h
  split_ifs at h with hmagic hversion hlen
  · cases h
  · cases h
  · cases h
  · rw [hread]
    exact ⟨rfl, not_not.mp hmagic, not_not.mp hversion⟩

/-- A packet that is accepted is built again from its fields and its payload. -/
theorem buildTcpResponse_of_accepted {buffer : List UInt8} {header : TcpHeader}
    (h : parseTcpHeader buffer = (0, header))
    (hlen : tcpHeaderSize + header.dataLen ≤ buffer.length) :
    buildTcpResponse header.cmdType header.seqId ((buffer.drop tcpHeaderSize).take header.dataLen) =
      clearFlags (buffer.take (tcpHeaderSize + header.dataLen)) := by
  obtain ⟨hread, hmagic, hversion⟩ := parseTcpHeader_accepts h
  have hpayload : ((buffer.drop tcpHeaderSize).take header.dataLen).length = header.dataLen := by
    rw [List.length_take, List.length_drop]
    omega
  have hheader : (⟨tcpMagic, tcpVersion, header.cmdType,
      ((buffer.drop tcpHeaderSize).take header.dataLen).length, header.seqId, 0⟩ : TcpHeader) =
        { TcpHeader.read buffer with flags := 0 } := by
    rw [hpayload, ← hmagic, ← hversion, ← hread]
  rw [buildTcpResponse, hheader, TcpHeader.bytes_read ((Nat.le_add_right _ _).trans hlen),
    clearFlags, List.append_assoc, List.take_take, List.drop_take, Nat.add_sub_cancel_left]
  rw [Nat.min_eq_left]
  rw [tcpHeaderSize]
  omega

/-- For all fields and payloads a response is parsed to what it was built from. For all packets that
are accepted the response built from what was parsed is the packet without its flags. -/
theorem tcpHeader_roundTrip :
    (∀ (cmdType seqId : UInt32) (data : List UInt8), data.length ≤ 1024 →
      parseTcpHeader (buildTcpResponse cmdType.toNat seqId.toNat data) =
          (0, ⟨tcpMagic, tcpVersion, cmdType.toNat, data.length, seqId.toNat, 0⟩) ∧
        (buildTcpResponse cmdType.toNat seqId.toNat data).drop 24 = data) ∧
    ∀ (buffer : List UInt8) (header : TcpHeader), parseTcpHeader buffer = (0, header) →
      tcpHeaderSize + header.dataLen ≤ buffer.length →
      buildTcpResponse header.cmdType header.seqId
          ((buffer.drop tcpHeaderSize).take header.dataLen) =
        clearFlags (buffer.take (tcpHeaderSize + header.dataLen)) := by
  refine ⟨fun cmdType seqId data hdata => ?_, fun buffer header => buildTcpResponse_of_accepted⟩
  obtain ⟨hheader, hpayload⟩ := buildTcpResponse_understood cmdType seqId hdata
  exact ⟨hheader, hpayload⟩

/-- A request with the payload "ab" and flags. -/
def flaggedPacket : List UInt8 := TcpHeader.bytes ⟨tcpMagic, tcpVersion, 3, 2, 7, 5⟩ ++ [97, 98]

theorem tcpHeader_roundTrip_flagged :
    parseTcpHeader (buildTcpResponse 3 7 [97, 98]) = (0, ⟨tcpMagic, tcpVersion, 3, 2, 7, 0⟩) ∧
    buildTcpResponse 3 7 [97, 98] = clearFlags flaggedPacket := by
  obtain ⟨hparse, hbuild⟩ := tcpHeader_roundTrip
  exact ⟨(hparse 3 7 [97, 98] (by decide)).1,
    hbuild flaggedPacket ⟨tcpMagic, tcpVersion, 3, 2, 7, 5⟩ (by decide) (by decide)⟩

end KvStore
