import KvStore.Network.Model

/-! `readN` and `parseTcpResponse` of a client, in front of one message of the server. Whatever
pieces it arrives in, the string that comes out is what stands behind the first header. -/
namespace KvStore
open Endian

theorem takeChunk_eq_some {stream chunk rest : List UInt8} {ended : Bool}
    (h : takeChunk stream chunk ended = some rest) :
    stream = chunk ++ rest ∧ (chunk = [] → stream = [] ∧ ended = true) := by
  unfold takeChunk at h
  split_ifs at h with hchunk hend hprefix
  · cases h
    subst hchunk
    exact ⟨hend.1, fun _ => hend⟩
  · cases h
    obtain ⟨tail, rfl⟩ := hprefix
    rw [List.drop_left]
    exact ⟨rfl, fun he => absurd he hchunk⟩

/-- A stream that has something gives its first byte. -/
theorem takeChunk_cons (b : UInt8) (rest : List UInt8) (ended : Bool) :
    takeChunk (b :: rest) [b] ended = some rest := by
  simp [takeChunk]

theorem takeChunk_all {stream : List UInt8} (h : stream ≠ []) (ended : Bool) :
    takeChunk stream stream ended = some [] := by
  simp [takeChunk, h]

/-- What the server has sent for this frame and the client has not read. -/
def Phase.Awaits (frame down : List UInt8) : Phase → Prop
  | .idle => False
  | .header headerBuf => headerBuf.length < tcpHeaderSize ∧
    ∃ p : RequestPacket, headerBuf ++ down = p.frame p.flags frame
  | .data dataLen dataBuf => dataBuf.length < dataLen ∧ dataLen = frame.length ∧
    dataBuf ++ down = frame

section Reading

variable {frame down chunk rest : List UInt8} {phase : Phase} {c c' : Client}

/-- The header that is read names the magic number and the length of the frame. -/
theorem read_frame (p : RequestPacket) {header : List UInt8} (hsize : frame.length < 2 ^ 32)
    (hlen : header.length = tcpHeaderSize) (h : header ++ rest = p.frame p.flags frame) :
    ofNet (header.take 4) = tcpMagic ∧ ofNet ((header.drop 12).take 4) = frame.length ∧
      rest = frame := by
  have hbytes := TcpHeader.length_bytes
    ⟨tcpMagic, tcpVersion, p.cmdType, frame.length, p.seqId, p.flags⟩
  obtain ⟨rfl, rfl⟩ := List.append_inj h (hlen.trans hbytes.symm)
  have hread := TcpHeader.read_bytes
    ⟨tcpMagic, tcpVersion, p.cmdType, rest.length, p.seqId, p.flags⟩ []
  rw [List.append_nil] at hread
  have hmagic := congrArg TcpHeader.magic hread
  have hdata := congrArg TcpHeader.dataLen hread
  refine ⟨hmagic, ?_, rfl⟩
  exact hdata.trans (Nat.mod_eq_of_lt hsize)

/-- A client that awaits something finds bytes that it wants. -/
theorem Phase.Awaits.exists_byte (h : phase.Awaits frame down) :
    0 < phase.wants ∧ ∃ b tail, down = b :: tail := by
  have hne : down ≠ [] := by
    rintro rfl
    cases phase with
    | idle => exact h
    | header headerBuf =>
      obtain ⟨hlt, p, hp⟩ := h
      have hlen := congrArg List.length hp
      rw [List.append_nil, p.length_frame] at hlen
      omega
    | data dataLen dataBuf =>
      obtain ⟨hlt, hframe, hp⟩ := h
      have hlen := congrArg List.length hp
      rw [List.append_nil] at hlen
      omega
  refine ⟨?_, List.exists_cons_of_ne_nil hne⟩
  cases phase with
  | idle => exact h.elim
  | header headerBuf => exact Nat.sub_pos_of_lt h.1
  | data dataLen dataBuf => exact Nat.sub_pos_of_lt h.1

/-- A `Read` takes bytes away, and behind the last one `parseTcpResponse` returns the frame. -/
theorem Client.read_awaits (hpos : 0 < frame.length) (hsize : frame.length < 2 ^ 32)
    (h : c.phase.Awaits frame (chunk ++ rest)) (hchunk : chunk ≠ [])
    (hread : c.read chunk = some c') :
    c'.todo = c.todo ∧ (c'.phase.Awaits frame rest ∧ c'.responses = c.responses ∨
      rest = [] ∧ c'.phase = .idle ∧ c'.responses = c.responses ++ [.ok frame]) := by
  unfold Client.read at hread
  split_ifs at hread with hwants
  cases hphase : c.phase with
  | idle =>
    rw [hphase] at h
    exact h.elim
  | header headerBuf =>
    rw [hphase] at h hread hwants
    obtain ⟨hlt, p, hp⟩ := h
    simp only [Phase.wants] at hwants
    rw [← List.append_assoc] at hp
    dsimp only at hread
    by_cases hmore : (headerBuf ++ chunk).length < tcpHeaderSize
    · rw [if_pos hmore] at hread
      cases hread
      exact ⟨rfl, .inl ⟨⟨hmore, p, hp⟩, rfl⟩⟩
    · have hfull : (headerBuf ++ chunk).length = tcpHeaderSize := by
        rw [List.length_append] at hmore ⊢
        omega
      obtain ⟨hmagic, hdata, rfl⟩ := read_frame p hsize hfull hp
      rw [if_neg hmore, hmagic, hdata, if_neg (not_not.mpr rfl), if_pos hpos] at hread
      cases hread
      exact ⟨rfl, .inl ⟨⟨hpos, rfl, rfl⟩, rfl⟩⟩
  | data dataLen dataBuf =>
    rw [hphase] at h hread hwants
    obtain ⟨hlt, hframe, hp⟩ := h
    simp only [Phase.wants] at hwants
    rw [← List.append_assoc] at hp
    dsimp only at hread
    by_cases hmore : (dataBuf ++ chunk).length < dataLen
    · rw [if_pos hmore] at hread
      cases hread
      exact ⟨rfl, .inl ⟨⟨hmore, hframe, hp⟩, rfl⟩⟩
    · rw [if_neg hmore] at hread
      cases hread
      have hrest : rest = [] := by
        have hlen := congrArg List.length hp
        rw [List.length_append] at hlen
        exact List.length_eq_zero_iff.mp (by omega)
      rw [hrest, List.append_nil] at hp
      refine ⟨rfl, .inr ⟨hrest, rfl, ?_⟩⟩
      rw [hp]
      rfl

/-- A client in the middle of a message can read its next byte. -/
theorem Client.read_isSome {b : UInt8} (h : 0 < c.phase.wants) : (c.read [b]).isSome := by
  unfold Client.read
  rw [if_neg (not_lt.mpr h)]
  split
  · rename_i hidle
    rw [hidle] at h
    exact absurd h (lt_irrefl 0)
  · dsimp only
    split_ifs
    all_goals rfl
  · dsimp only
    split_ifs
    all_goals rfl

end Reading

end KvStore
