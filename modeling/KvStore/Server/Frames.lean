import KvStore.Server.Pipeline

/-! What `server_reader` sends for one packet. The handler has built a whole response, header and
text, and the reader puts a header of its own in front of it. -/
namespace KvStore

/-- A frame for this request: a header with the length of the text, and the text. -/
def RequestPacket.frame (p : RequestPacket) (flags : ℕ) (text : List UInt8) : List UInt8 :=
  TcpHeader.bytes ⟨tcpMagic, tcpVersion, p.cmdType, text.length, p.seqId, flags⟩ ++ text

theorem RequestPacket.length_frame (p : RequestPacket) (flags : ℕ) (text : List UInt8) :
    (p.frame flags text).length = tcpHeaderSize + text.length := by
  rw [frame, List.length_append, TcpHeader.length_bytes]

section Frames

variable {S : Type*} [Comparisons S] (P : Scores S) (cfg : ServerConfig) (w : ℕ → ℕ × Host)

/-- The command of a packet on its arguments: the text of the result, and the store. -/
def RequestPacket.result (p : RequestPacket) (sys : ℕ × Host) (s : Store S) :
    Option (List UInt8 × Store S) :=
  runCommand P sys.1 sys.2 s cfg (Cmd.ofCode p.cmdType) (args p.payload).1 (args p.payload).2

theorem RequestPacket.handle_eq (p : RequestPacket) (sys : ℕ × Host) (s : Store S) :
    p.handle P cfg sys s = (p.result P cfg sys s).map fun c => (p.frame 0 c.1, c.2) := by
  obtain ⟨front, -, hcall⟩ := p.call_eq P cfg (fun _ => List.cons_ne_nil 0 [])
  rw [handle, hcall, Option.map_map]
  rfl

variable {P cfg w} {r : Reader S} {p : RequestPacket} {more : List UInt8}
  {c : List UInt8 × Store S}

/-- The frame of the handler goes out behind a second header. -/
theorem Reader.Holds.sends (h : r.Holds (p.bytes ++ more))
    (hc : p.result P cfg (w r.calls.length) r.store = some c) : ∃ r' : Reader S,
    handlePackets P cfg w 1 r = some r' ∧
    r'.sent = r.sent ++ [p.frame p.flags (p.frame 0 c.1)] := by
  have hhandle := p.handle_eq P cfg (w r.calls.length) r.store
  rw [hc] at hhandle
  obtain ⟨-, hsome⟩ := handlePackets_packet P cfg w h 0
  obtain ⟨r', hr', -, -, hsent, -⟩ := hsome _ hhandle
  exact ⟨r', hr', hsent⟩

theorem RequestPacket.frame_frame_ne (p : RequestPacket) (flags : ℕ) (text : List UInt8) :
    p.frame p.flags (p.frame 0 text) ≠ p.frame flags text := by
  intro h
  have hlen := congrArg List.length h
  rw [p.length_frame, p.length_frame, p.length_frame, tcpHeaderSize] at hlen
  omega

/-- No packet is answered with a frame that has its result. -/
theorem serverReader_never_frames (h : r.Holds (p.bytes ++ more))
    (hc : p.result P cfg (w r.calls.length) r.store = some c) : ∃ r' : Reader S,
    handlePackets P cfg w 1 r = some r' ∧ ∀ flags, r'.sent ≠ r.sent ++ [p.frame flags c.1] := by
  obtain ⟨r', hr', hsent⟩ := h.sends hc
  refine ⟨r', hr', ?_⟩
  intro flags hframe
  rw [hsent] at hframe
  exact p.frame_frame_ne flags c.1 (List.singleton_inj.mp (List.append_cancel_left hframe))

end Frames

/-- A new connection on which the packet has been received. -/
def Reader.received (s : Store ℕ) (p : RequestPacket) : Reader ℕ :=
  { Reader.start s with
    buffer := p.bytes ++ List.replicate (readerBufferSize - p.bytes.length) 0
    bufferLen := p.bytes.length }

theorem Reader.received_holds (s : Store ℕ) (p : RequestPacket) :
    (Reader.received s p).Holds (p.bytes ++ []) where
  size := by
    have hlen := p.payload_le
    rw [received, List.length_append, List.length_replicate, p.length_bytes, tcpHeaderSize,
      readerBufferSize]
    omega
  opened := rfl
  len := by rw [List.append_nil]; rfl
  front := ⟨List.replicate (readerBufferSize - p.bytes.length) 0, by rw [List.append_nil]; rfl⟩

theorem serverReader_never_frames_one : ∃ r',
    handlePackets plainScores ⟨checkedConfig, .empty⟩ (fun _ => (0, roomyHost)) 1
      (Reader.received freshStore existLetter) = some r' ∧
    ∀ flags, r'.sent ≠ [existLetter.frame flags noExistText] :=
  serverReader_never_frames (c := (noExistText, freshStore))
    (Reader.received_holds freshStore existLetter) rfl

/-- `EXIST a` is answered with two headers and the text. -/
theorem serverReader_sends_two_headers : ∃ r',
    handlePackets plainScores ⟨checkedConfig, .empty⟩ (fun _ => (0, roomyHost)) 1
      (Reader.received freshStore existLetter) = some r' ∧
    r'.sent ≠ [existLetter.frame 0 noExistText] := by
  obtain ⟨r', hr', hsent⟩ := (Reader.received_holds freshStore existLetter).sends
    (c := (noExistText, freshStore)) rfl
  refine ⟨r', hr', ?_⟩
  rw [hsent]
  exact fun h => existLetter.frame_frame_ne 0 noExistText (List.singleton_inj.mp h)

end KvStore
