import KvStore.Protocol.Model

/-! What the in-place parsing of a payload comes to: the string up to the NUL, cut at its first
space. -/
namespace KvStore

namespace CString

/-- The string from index `n` on. -/
def drop (s : CString) (n : ℕ) : CString :=
  ⟨s.bytes.drop n, fun h => s.nonzero (List.mem_of_mem_drop h)⟩

theorem read_append_zero (a b : List UInt8) : read (a ++ 0 :: b) = read a := by
  apply CString.ext
  induction a with
  | nil => simp [read]
  | cons x a ih =>
    by_cases hx : x = 0
    · simp [read, hx]
    · simp only [read, List.cons_append, List.takeWhile_cons] at ih ⊢
      simpa [hx] using ih

theorem read_bytes_append (s : CString) (b : List UInt8) : read (s.bytes ++ 0 :: b) = s := by
  rw [read_append_zero, read_bytes]

/-- What is read ends at the first NUL of the bytes. -/
theorem exists_read {bs : List UInt8} (h : 0 ∈ bs) : ∃ rest, bs = (read bs).bytes ++ 0 :: rest := by
  induction bs with
  | nil => simp at h
  | cons x bs ih =>
    by_cases hx : x = 0
    · exact ⟨bs, by simp [read, hx]⟩
    · have h' : 0 ∈ bs := by
        obtain rfl | h' := List.mem_cons.mp h
        · exact absurd rfl hx
        · exact h'
      obtain ⟨rest, hrest⟩ := ih h'
      refine ⟨rest, ?_⟩
      have hread : (read (x :: bs)).bytes = x :: (read bs).bytes := by simp [read, hx]
      rw [hread, List.cons_append, ← hrest]

/-- The parts of a string around the first place of a byte. -/
theorem split_of_strchr {s : CString} {c : UInt8} {i : ℕ} (h : s.strchr c = some i) :
    s.bytes = (s.truncate i).bytes ++ c :: (s.drop (i + 1)).bytes ∧
      (s.truncate i).bytes.length = i := by
  obtain ⟨hi, hc, -⟩ := List.findIdx?_eq_some_iff_getElem.mp h
  have hget : s.bytes[i] = c := by simpa using hc
  refine ⟨?_, ?_⟩
  · simp only [truncate, drop]
    rw [← hget, ← List.drop_eq_getElem_cons hi, List.take_append_drop]
  · simp only [truncate, List.length_take]
    omega

theorem strchr_append {a b : List UInt8} {c : UInt8} (ha : c ∉ a) {s : CString}
    (hs : s.bytes = a ++ c :: b) : s.strchr c = some a.length := by
  rw [strchr, hs, List.findIdx?_append]
  have hnone : a.findIdx? (· = c) = none := by
    rw [List.findIdx?_eq_none_iff]
    intro x hx
    have hne : x ≠ c := fun h => ha (h ▸ hx)
    simpa using hne
  simp [hnone, List.findIdx?_cons]

end CString

variable {buffer : List UInt8} {n : ℕ}

/-- The NUL behind the payload ends the string that is read. -/
theorem set_drop (hlen : tcpHeaderSize + n < buffer.length) :
    (buffer.set (tcpHeaderSize + n) 0).drop tcpHeaderSize =
      (buffer.drop tcpHeaderSize).take n ++ 0 :: (buffer.drop tcpHeaderSize).drop (n + 1) := by
  rw [List.drop_set, if_neg (by omega), Nat.add_sub_cancel_left,
    List.set_eq_take_append_cons_drop, if_pos]
  rw [List.length_drop]
  omega

theorem set_middle {a b : List UInt8} {c : UInt8} (h : a.length = n) (x : UInt8) :
    (a ++ c :: b).set n x = a ++ x :: b := by
  subst h
  simp

/-- A payload is the string up to its first NUL, and the first space divides it. -/
theorem splitPayload_eq (hn : 0 < n) (hlen : tcpHeaderSize + n < buffer.length) :
    splitPayload buffer n =
      let data := CString.read ((buffer.drop tcpHeaderSize).take n)
      match data.strchr space with
      | none => some ⟨buffer.set (tcpHeaderSize + n) 0, some data, none⟩
      | some i => some ⟨(buffer.set (tcpHeaderSize + n) 0).set (tcpHeaderSize + i) 0,
          some (data.truncate i), some (data.drop (i + 1))⟩ := by
  have hread : CString.read ((buffer.set (tcpHeaderSize + n) 0).drop tcpHeaderSize) =
      CString.read ((buffer.drop tcpHeaderSize).take n) := by
    rw [set_drop hlen, CString.read_append_zero]
  rw [splitPayload, if_neg (by omega), if_neg (by omega)]
  simp only [hread]
  cases hi : (CString.read ((buffer.drop tcpHeaderSize).take n)).strchr space with
  | none => rfl
  | some i =>
    obtain ⟨hsplit, hilen⟩ := CString.split_of_strchr hi
    -- the data is the string, the NUL behind it, and the rest
    have hzero : 0 ∈ (buffer.set (tcpHeaderSize + n) 0).drop tcpHeaderSize := by
      simp [set_drop hlen]
    obtain ⟨rest, hrest⟩ := CString.exists_read hzero
    rw [hread, hsplit] at hrest
    have hset : ((buffer.set (tcpHeaderSize + n) 0).set (tcpHeaderSize + i) 0).drop tcpHeaderSize =
        ((CString.read ((buffer.drop tcpHeaderSize).take n)).truncate i).bytes ++
          0 :: (((CString.read ((buffer.drop tcpHeaderSize).take n)).drop (i + 1)).bytes ++
            0 :: rest) := by
      rw [List.drop_set, if_neg (by omega), Nat.add_sub_cancel_left, hrest, List.append_assoc,
        List.cons_append, set_middle hilen]
    have hdrop : (((buffer.set (tcpHeaderSize + n) 0).set (tcpHeaderSize + i) 0).drop
        tcpHeaderSize).drop (i + 1) =
          ((CString.read ((buffer.drop tcpHeaderSize).take n)).drop (i + 1)).bytes ++ 0 :: rest := by
      rw [hset, List.append_cons]
      apply List.drop_left'
      rw [List.length_append, hilen]
      rfl
    dsimp only
    rw [hdrop, hset, CString.read_bytes_append, CString.read_bytes_append]

/-- Key and value fit the payload, and the space in front of a value takes a byte of it. -/
theorem splitPayload_length {p : Payload} (h : splitPayload buffer n = some p) :
    (∀ k, p.key = some k → k.length ≤ n) ∧ ∀ v, p.value = some v → v.length < n := by
  by_cases hn : n = 0
  · rw [splitPayload, if_pos hn] at h
    cases h
    simp
  by_cases hlen : buffer.length ≤ tcpHeaderSize + n
  · rw [splitPayload, if_neg hn, if_pos hlen] at h
    cases h
  have hread : (CString.read ((buffer.drop tcpHeaderSize).take n)).length ≤ n :=
    (List.takeWhile_sublist _).length_le.trans (List.length_take_le n _)
  rw [splitPayload_eq (Nat.pos_of_ne_zero hn) (by omega)] at h
  dsimp only at h
  split at h
  · cases h
    refine ⟨?_, by simp⟩
    intro k hk
    cases hk
    exact hread
  · rename_i i hi
    cases h
    constructor
    · intro k hk
      cases hk
      exact (List.length_take_le' _ _).trans hread
    · intro v hv
      cases hv
      have hi' := (List.findIdx?_eq_some_iff_getElem.mp hi).1
      rw [CString.length] at hread
      rw [CString.length, CString.drop, List.length_drop]
      omega

/-- The length that is accepted. -/
theorem dataLen_le (h : ¬ (parseTcpHeader buffer).1 < 0) :
    (TcpHeader.read buffer).dataLen ≤ 1024 := by
  by_contra hlong
  apply h
  rw [parseTcpHeader]
  split_ifs with h₁ h₂ h₃
  · exact (by decide : (-2 : ℤ) < 0)
  · exact (by decide : (-3 : ℤ) < 0)
  · exact (by decide : (-4 : ℤ) < 0)
  · exact absurd (not_le.mp hlong) h₃

/-- A valid request packet. -/
def packet (cmd seq flags : ℕ) (payload : List UInt8) : List UInt8 :=
  TcpHeader.bytes ⟨tcpMagic, tcpVersion, cmd, payload.length, seq, flags⟩ ++ payload

@[simp] theorem length_packet (cmd seq flags : ℕ) (payload : List UInt8) :
    (packet cmd seq flags payload).length = tcpHeaderSize + payload.length := by
  simp [packet]

theorem read_packet {cmd seq flags : ℕ} {payload : List UInt8} (hcmd : cmd < 2 ^ 32)
    (hseq : seq < 2 ^ 32) (hflags : flags < 2 ^ 32) (hlen : payload.length ≤ 1024)
    (rest : List UInt8) :
    TcpHeader.read (packet cmd seq flags payload ++ rest) =
      ⟨tcpMagic, tcpVersion, cmd, payload.length, seq, flags⟩ := by
  rw [packet, List.append_assoc, TcpHeader.read_bytes]
  simp only [Nat.mod_eq_of_lt hcmd, Nat.mod_eq_of_lt hseq, Nat.mod_eq_of_lt hflags,
    Nat.mod_eq_of_lt (show payload.length < 2 ^ 32 by omega)]
  rfl

section Handler

variable {S : Type*} [Comparisons S] {P : Scores S} {cfg : ServerConfig} {w : Host} {s : Store S}
  {cmd seq flags : ℕ} {payload rest : List UInt8}

/-- The received bytes hold a packet with a valid header and its whole payload. -/
structure Accepted (buffer : List UInt8) (len : ℕ) : Prop where
  header : tcpHeaderSize ≤ len
  present : len ≤ buffer.length
  valid : (parseTcpHeader buffer).1 = 0
  complete : tcpHeaderSize + (TcpHeader.read buffer).dataLen ≤ len

theorem Accepted.dataLen_le {buffer : List UInt8} {len : ℕ} (h : Accepted buffer len) :
    (TcpHeader.read buffer).dataLen ≤ 1024 := by
  apply KvStore.dataLen_le
  rw [h.valid]
  exact lt_irrefl 0

theorem parseTcpHeader_neg (buffer : List UInt8) :
    (parseTcpHeader buffer).1 < 0 ↔ (parseTcpHeader buffer).1 ≠ 0 := by
  unfold parseTcpHeader
  dsimp only
  split_ifs <;> simp

theorem Accepted.kvsTcpProtocol {len : ℕ} (h : Accepted buffer len) :
    kvsTcpProtocol P cfg n w s buffer len =
      (splitPayload buffer (TcpHeader.read buffer).dataLen).bind fun p =>
        (runCommand P n w s cfg (Cmd.ofCode (TcpHeader.read buffer).cmdType) p.key p.value).bind
          fun r =>
            let response := buildTcpResponse (TcpHeader.read buffer).cmdType
              (TcpHeader.read buffer).seqId r.1
            some ⟨response.length, p.afterCommand (Cmd.ofCode (TcpHeader.read buffer).cmdType),
              response, r.2⟩ := by
  have hlong : ¬ len < tcpHeaderSize := not_lt.mpr h.header
  have hall : ¬ buffer.length < len := not_lt.mpr h.present
  have hvalid : ¬ (parseTcpHeader buffer).1 < 0 := by
    rw [h.valid]
    omega
  have hcomplete : ¬ len < tcpHeaderSize + (TcpHeader.read buffer).dataLen := not_lt.mpr h.complete
  simp only [KvStore.kvsTcpProtocol, hlong, hall, hvalid, if_false, parseTcpHeader_snd, hcomplete]

/-- A valid packet at the front of the received bytes. -/
theorem packet_accepted {len : ℕ} (hcmd : cmd < 2 ^ 32) (hseq : seq < 2 ^ 32)
    (hflags : flags < 2 ^ 32) (hpay : payload.length ≤ 1024)
    (hle : (packet cmd seq flags payload).length ≤ len)
    (hlen : len ≤ (packet cmd seq flags payload ++ rest).length) :
    Accepted (packet cmd seq flags payload ++ rest) len := by
  have hread := read_packet hcmd hseq hflags hpay rest
  rw [length_packet] at hle
  refine ⟨by omega, hlen, ?_, by rw [hread]; exact hle⟩
  simp only [parseTcpHeader, hread, ne_eq, not_true_eq_false, if_false, if_neg (not_lt.mpr hpay)]

/-- A valid packet runs its command on what its payload splits into. -/
theorem kvsTcpProtocol_packet {len : ℕ} (hcmd : cmd < 2 ^ 32) (hseq : seq < 2 ^ 32)
    (hflags : flags < 2 ^ 32) (hpay : payload.length ≤ 1024)
    (hle : (packet cmd seq flags payload).length ≤ len)
    (hlen : len ≤ (packet cmd seq flags payload ++ rest).length) :
    kvsTcpProtocol P cfg n w s (packet cmd seq flags payload ++ rest) len =
      (splitPayload (packet cmd seq flags payload ++ rest) payload.length).bind fun p =>
        (runCommand P n w s cfg (Cmd.ofCode cmd) p.key p.value).bind fun r =>
          some ⟨(buildTcpResponse cmd seq r.1).length, p.afterCommand (Cmd.ofCode cmd),
            buildTcpResponse cmd seq r.1, r.2⟩ := by
  rw [(packet_accepted hcmd hseq hflags hpay hle hlen).kvsTcpProtocol,
    read_packet hcmd hseq hflags hpay rest]

/-- Bytes that hold no such packet are refused with a code, and nothing is answered. -/
theorem kvsTcpProtocol_refused {len : ℕ} (hall : len ≤ buffer.length) (h : ¬ Accepted buffer len) :
    ∃ ret < 0, kvsTcpProtocol P cfg n w s buffer len = some ⟨ret, buffer, [], s⟩ := by
  simp only [kvsTcpProtocol, parseTcpHeader_snd]
  by_cases hlong : len < tcpHeaderSize
  · exact ⟨-1, by decide, if_pos hlong⟩
  rw [if_neg hlong, if_neg (not_lt.mpr hall)]
  by_cases hneg : (parseTcpHeader buffer).1 < 0
  · exact ⟨_, hneg, if_pos hneg⟩
  rw [if_neg hneg]
  by_cases hshort : len < tcpHeaderSize + (TcpHeader.read buffer).dataLen
  · exact ⟨-5, by decide, if_pos hshort⟩
  rw [parseTcpHeader_neg, not_ne_iff] at hneg
  exact absurd ⟨by omega, hall, hneg, by omega⟩ h

/-- Bytes that hold no such packet change nothing. -/
theorem kvsTcpProtocol_rejected {len : ℕ} (h : ¬ Accepted buffer len) {r : Handled S}
    (hr : kvsTcpProtocol P cfg n w s buffer len = some r) : r.store = s := by
  obtain hall | hall := le_or_gt len buffer.length
  · obtain ⟨ret, -, hret⟩ := kvsTcpProtocol_refused (P := P) (n := n) (w := w) (s := s) hall h
    rw [hret] at hr
    cases hr
    rfl
  · rw [kvsTcpProtocol, if_pos hall] at hr
    split_ifs at hr
    cases hr
    rfl

end Handler

end KvStore
