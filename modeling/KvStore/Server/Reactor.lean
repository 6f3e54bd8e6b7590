import KvStore.Protocol.Lines
import KvStore.Server.Bounds

/-! The callbacks of `reactor.c` on one connection. The handler works in the two buffers of the
connection, which are shorter than the longest packet that it accepts and the longest response that
it builds. -/
namespace KvStore

/-- `BUFFER_LENGTH` of `server.h`. -/
def bufferLength : ℕ := 1024

/-- `struct conn`, as far as the callbacks on the bytes of a request go. -/
structure Conn where
  rbuffer : List UInt8
  rlength : ℕ
  wbuffer : List UInt8
  wlength : ℤ

/-- A connection as `event_register` leaves it. -/
def Conn.register : Conn where
  rbuffer := List.replicate bufferLength 0
  rlength := 0
  wbuffer := List.replicate bufferLength 0
  wlength := 0

/-- `rbuffer` behind `memset` and a `recv` of these bytes. -/
def received (bytes : List UInt8) : List UInt8 :=
  bytes ++ List.replicate (bufferLength - bytes.length) 0

section Callbacks

variable {S : Type*} [Comparisons S] (P : Scores S) (cfg : ServerConfig) (n : ℕ) (w : Host)
  (s : Store S) (c : Conn) (bytes : List UInt8)

/-- A response that is longer than its buffer does not come back. -/
def kvsRequest (c : Conn) : Option (Conn × Store S) :=
  (kvsTcpProtocol P cfg n w s c.rbuffer c.rlength).bind fun h =>
  if bufferLength < h.response.length then none
  else some ({ c with
      rbuffer := h.buffer
      wbuffer := h.response ++ c.wbuffer.drop h.response.length
      wlength := h.ret }, h.store)

/-- `recv_cb` with what `recv` gives, which is nothing when the client is gone or `recv` fails. The
return value is 0 when the connection was closed. -/
def recvCb : Option (ℕ × Conn × Store S) :=
  if bytes = [] then some (0, { c with rbuffer := received [] }, s)
  else
    (kvsRequest P cfg n w s { c with rbuffer := received bytes, rlength := bytes.length }).map
      fun r => (bytes.length, r)

/-- The length that `send_cb` passes to `send`, when it calls it. -/
def sendCb : Option ℤ := if c.wlength ≠ 0 then some c.wlength else none

/-- What `kvs_tcp_protocol` touches when these bytes are received. -/
def recvAccesses : List Access :=
  if bytes.length < tcpHeaderSize then []
  else handlerAccesses P n w s cfg (received bytes) bytes.length

/-- The buffers of the connection, and the local result of the handler. -/
def Access.InConn : Access → Prop
  | .buffer i => i < bufferLength
  | .response i => i < bufferLength
  | .result i => i < resultSize
  | .sendBuf _ => False

/-- What is received is handled inside the buffers, and the length of the answer is one that can be
sent from them. -/
structure Contained : Prop where
  touches : ∀ a ∈ recvAccesses P cfg n w s bytes, a.InConn
  answers : ∀ count c' s', recvCb P cfg n w s c bytes = some (count, c', s') → 0 < count →
    (0 ≤ c'.wlength ∧ c'.wlength ≤ bufferLength) ∧
      ∀ len, sendCb c' = some len → 0 ≤ len ∧ len ≤ bufferLength

/-- The longest text behind a header in `wbuffer`. -/
def maxReply : ℕ := bufferLength - tcpHeaderSize

/-- The value that a `get` finds and the lines of a `ZRANGE` are short. -/
structure ShortReply (key value : Option CString) (cmd : Option Cmd) : Prop where
  found : ∀ v, s.Finds n key (.str v) cmd → v.length ≤ maxReply
  selected : ∀ es, s.Selects P n key value cmd es → linesLength P es ≤ maxReply

/-- The bytes are a whole packet with a valid header, the NUL behind its payload has a place in the
buffer, and its reply is short. -/
structure Fits : Prop where
  accepted : Accepted (received bytes) bytes.length
  ends : (TcpHeader.read (received bytes)).dataLen = 0 ∨
    tcpHeaderSize + (TcpHeader.read (received bytes)).dataLen < bufferLength
  reply : ∀ p, splitPayload (received bytes) (TcpHeader.read (received bytes)).dataLen = some p →
    ShortReply P n s p.key p.value (Cmd.ofCode (TcpHeader.read (received bytes)).cmdType)

end Callbacks

theorem length_received {bytes : List UInt8} (h : bytes.length ≤ bufferLength) :
    (received bytes).length = bufferLength := by
  rw [received, List.length_append, List.length_replicate]
  omega

section Replies

variable {S : Type*} [Comparisons S] {P : Scores S} {cfg : ServerConfig} {n : ℕ} {w : Host}
  {s : Store S} {key value : Option CString} {cmd : Option Cmd} {r : List UInt8 × Store S}

omit [Comparisons S] in
/-- The text of a range is short when its lines are; it fills the result when they do not fit. -/
theorem zrangeText_short_iff (es : List (ZRangeEntry S)) :
    (zrangeText P es []).length ≤ maxReply ↔ linesLength P es ≤ maxReply := by
  have hnil : ([] : List UInt8).length < resultSize := by decide
  obtain ⟨-, htext⟩ | ⟨pre, e, post, rfl, hlt, hle, htext⟩ := @zrangeText_cases S P es [] hnil
  · rw [htext, List.nil_append, length_flatMap_zrangeLine]
  · rw [htext, List.nil_append, List.length_append, length_flatMap_zrangeLine, List.length_take,
      linesLength_append, linesLength_cons]
    rw [List.length_nil, resultSize] at *
    rw [maxReply, bufferLength, tcpHeaderSize]
    omega

theorem runCommand_found {v : CString} (h : s.Finds n key (.str v) cmd) (hlt : v.length < resultSize) :
    ∃ s', runCommand P n w s cfg cmd key value = some (v.bytes, s') := by
  have htext : getText (.str v) = some v.bytes := if_pos hlt
  unfold Store.Finds at h
  split at h
  · obtain ⟨a, ha⟩ := h
    exact ⟨{ s with array := a }, by simp only [runCommand, ha, Option.bind_some, htext]⟩
  · exact ⟨s, by simp only [runCommand, h, Option.bind_some, htext]⟩
  · exact ⟨s, by simp only [runCommand, h, Option.bind_some, htext]⟩
  · exact h.elim

theorem runCommand_selected {es : List (ZRangeEntry S)} (h : s.Selects P n key value cmd es) :
    runCommand P n w s cfg cmd key value = some (zrangeText P es [], s) := by
  obtain ⟨rfl, hkey, v, min, max, rfl, hrange, hes⟩ := h
  obtain ⟨k, rfl⟩ := Option.ne_none_iff_exists'.mp hkey
  exact runCommand_zrange hrange hes

theorem commandAccesses_found {v : CString} (h : s.Finds n key (.str v) cmd) :
    commandAccesses P n w s cfg cmd key value = copyText v.bytes := by
  unfold Store.Finds at h
  split at h
  · obtain ⟨a, ha⟩ := h
    simp only [commandAccesses, ha, Option.map_some, Option.getD_some, getAccesses]
  · simp only [commandAccesses, h, Option.map_some, Option.getD_some, getAccesses]
  · simp only [commandAccesses, h, Option.map_some, Option.getD_some, getAccesses]
  · exact h.elim

/-- A command stays in the result and leaves a text that fits behind the header exactly when what
it has found is short. -/
theorem shortReply_iff : ShortReply P n s key value cmd ↔
    (∀ a ∈ commandAccesses P n w s cfg cmd key value, a.InConn) ∧
      ∀ r, runCommand P n w s cfg cmd key value = some r → r.1.length ≤ maxReply := by
  constructor
  · rintro ⟨hfound, hselected⟩
    constructor
    · have hshort : ∀ v, s.Finds n key (.str v) cmd → v.length < resultSize :=
        fun v hv => (hfound v hv).trans_lt (by decide)
      exact (Within.commandAccesses hshort value).forall fun _ hi => hi
    · intro r hr
      obtain hshort | ⟨v, hv, -, he⟩ | ⟨es, hes, he⟩ := runCommand_cases hr
      · exact hshort.trans (by decide)
      · rw [he]
        exact hfound v hv
      · rw [he]
        exact (zrangeText_short_iff es).mpr (hselected es hes)
  · rintro ⟨htouches, hreply⟩
    constructor
    · intro v hv
      rw [commandAccesses_found hv] at htouches
      have hlt : v.length < resultSize :=
        htouches (.result v.length) (List.mem_map.mpr ⟨_, List.mem_range'_1.mpr ⟨Nat.zero_le _, by
          rw [CString.length]
          omega⟩, rfl⟩)
      obtain ⟨s', hs'⟩ : ∃ s', runCommand P n w s cfg cmd key value = some (v.bytes, s') :=
        runCommand_found hv hlt
      exact hreply _ hs'
    · intro es hes
      exact (zrangeText_short_iff es).mp (hreply _ (runCommand_selected hes))

end Replies

/-- A text of this length is built inside the buffers. -/
theorem buildAccesses_inConn_iff {len : ℕ} (hlen : len < resultSize) :
    (∀ a ∈ buildAccesses len, a.InConn) ↔ len ≤ maxReply := by
  constructor
  · intro h
    by_contra hlong
    have hin : Access.response (tcpHeaderSize + maxReply) ∈ buildAccesses len :=
      List.mem_append_right _ (List.mem_map.mpr ⟨_, List.mem_range'_1.mpr ⟨Nat.le_add_right _ _, by omega⟩, rfl⟩)
    exact absurd (h _ hin) (lt_irrefl bufferLength)
  · intro hle a ha
    simp only [buildAccesses, List.mem_append] at ha
    rw [maxReply, bufferLength, tcpHeaderSize] at hle
    obtain ((ha | ha) | ha) | ha := ha
    · exact (Within.range (z := resultSize) (by omega)).forall (fun _ hi => hi) a ha
    · exact (Within.range (z := bufferLength) (by decide)).forall (fun _ hi => hi) a ha
    · exact (Within.range (z := resultSize) (by omega)).forall (fun _ hi => hi) a ha
    · exact (Within.range (z := bufferLength) (by rw [bufferLength, tcpHeaderSize]; omega)).forall (fun _ hi => hi) a ha

/-- The payload stays inside the buffer exactly when the NUL behind it does. -/
theorem payloadAccesses_inConn_iff {buffer : List UInt8} (hsize : buffer.length = bufferLength)
    {dataLen : ℕ} {cmd : Option Cmd} : (∀ a ∈ payloadAccesses buffer dataLen cmd, a.InConn) ↔
      dataLen = 0 ∨ tcpHeaderSize + dataLen < bufferLength := by
  constructor
  · intro h
    rw [or_iff_not_imp_left]
    intro hne
    have hin : Access.buffer (tcpHeaderSize + dataLen) ∈ payloadAccesses buffer dataLen cmd := by
      rw [payloadAccesses, if_neg hne]
      exact List.mem_append_left _ List.mem_cons_self
    exact h _ hin
  · rintro (rfl | hlt)
    · intro a ha
      cases ha
    · refine (Within.payloadAccesses (by omega)).forall ?_
      intro i hi
      exact (show i < bufferLength by omega)

section Reactor

variable {S : Type*} [Comparisons S] {P : Scores S} {cfg : ServerConfig} {n : ℕ} {w : Host}
  {s : Store S} {c : Conn} {buffer bytes : List UInt8} {len : ℕ}

/-- The handler stays inside the buffers exactly when the NUL has a place and the reply is short. -/
theorem handlerAccesses_inConn_iff (hsize : buffer.length = bufferLength) (h : Accepted buffer len) :
    (∀ a ∈ handlerAccesses P n w s cfg buffer len, a.InConn) ↔
      ((TcpHeader.read buffer).dataLen = 0 ∨
        tcpHeaderSize + (TcpHeader.read buffer).dataLen < bufferLength) ∧
      ∀ p, splitPayload buffer (TcpHeader.read buffer).dataLen = some p →
        ShortReply P n s p.key p.value (Cmd.ofCode (TcpHeader.read buffer).cmdType) := by
  have hgo : ¬ ((parseTcpHeader buffer).1 < 0 ∨ len < tcpHeaderSize + (TcpHeader.read buffer).dataLen) := by
    rw [h.valid, not_or]
    exact ⟨lt_irrefl 0, not_lt.mpr h.complete⟩
  have hparse : ∀ a ∈ parseAccesses, a.InConn :=
    (Within.range (z := bufferLength) (by decide)).forall fun _ hi => hi
  have hresult : ∀ a ∈ accessRange .result 0 resultSize, a.InConn :=
    (Within.range (z := resultSize) (by decide)).forall fun _ hi => hi
  have hpayload : (∀ a ∈ payloadAccesses buffer (TcpHeader.read buffer).dataLen
      (Cmd.ofCode (TcpHeader.read buffer).cmdType), a.InConn) ↔ _ := payloadAccesses_inConn_iff hsize
  rw [← hpayload]
  simp only [handlerAccesses, if_neg hgo, List.forall_mem_append, and_iff_right hparse,
    and_iff_left hresult]
  refine and_congr_right fun _ => ?_
  rw [forall_getD_iff]
  refine forall₂_congr fun p _ => ?_
  rw [List.forall_mem_append, forall_getD_iff, shortReply_iff]
  exact and_congr_right fun _ => forall₂_congr fun r hr =>
    buildAccesses_inConn_iff (runCommand_length hr)

theorem Accepted.recvAccesses (h : Accepted (received bytes) bytes.length) :
    recvAccesses P cfg n w s bytes = handlerAccesses P n w s cfg (received bytes) bytes.length :=
  if_neg (not_lt.mpr h.header)

/-- What is sent for a packet that is handled is its response. -/
theorem Accepted.answers (h : Accepted (received bytes) bytes.length) {count : ℕ} {c' : Conn}
    {s' : Store S} (hr : recvCb P cfg n w s c bytes = some (count, c', s')) (hpos : 0 < count) :
    0 ≤ c'.wlength ∧ c'.wlength ≤ bufferLength := by
  unfold recvCb at hr
  split_ifs at hr
  · cases hr
    exact absurd hpos (lt_irrefl 0)
  · obtain ⟨⟨c₁, s₁⟩, hreq, hr⟩ := Option.map_eq_some_iff.mp hr
    cases hr
    obtain ⟨x, hx, hreq⟩ := Option.bind_eq_some_iff.mp hreq
    split_ifs at hreq with hlong
    cases hreq
    obtain ⟨resp, hret, hlen, -⟩ := kvsTcpProtocol_ret h hx
    have hle : resp ≤ bufferLength := by omega
    change 0 ≤ x.ret ∧ x.ret ≤ bufferLength
    rw [hret]
    exact ⟨Int.natCast_nonneg resp, Int.ofNat_le.mpr hle⟩

theorem sendCb_eq {len : ℤ} (h : sendCb c = some len) : len = c.wlength := by
  unfold sendCb at h
  split_ifs at h
  cases h
  rfl

/-- Bytes that are no packet leave a negative length. -/
theorem accepted_of_contained (hlen : bytes.length ≤ bufferLength) (hne : bytes ≠ [])
    (h : Contained P cfg n w s c bytes) : Accepted (received bytes) bytes.length := by
  by_contra hno
  have hall : bytes.length ≤ (received bytes).length := by
    rw [length_received hlen]
    exact hlen
  obtain ⟨ret, hneg, hret⟩ :=
    kvsTcpProtocol_refused (P := P) (n := n) (w := w) (s := s) hall hno
  have hrecv : recvCb P cfg n w s c bytes = some (bytes.length,
      { c with rbuffer := received bytes, rlength := bytes.length, wlength := ret }, s) := by
    rw [recvCb, if_neg hne, kvsRequest, hret]
    rfl
  exact absurd (h.answers _ _ _ hrecv (List.length_pos_iff.mpr hne)).1.1 (not_le.mpr hneg)

/-- What `recv_cb` receives is handled inside the buffers, and answered with a length inside them,
exactly when the bytes are a whole packet that fits with its NUL and has a short reply. -/
theorem recvCb_contained_iff (hlen : bytes.length ≤ bufferLength) :
    Contained P cfg n w s c bytes ↔ bytes = [] ∨ Fits P n s bytes := by
  constructor
  · intro h
    rw [or_iff_not_imp_left]
    intro hne
    have hacc := accepted_of_contained hlen hne h
    have htouches := h.touches
    rw [hacc.recvAccesses, handlerAccesses_inConn_iff (length_received hlen) hacc] at htouches
    exact ⟨hacc, htouches.1, htouches.2⟩
  · rintro (rfl | ⟨hacc, hends, hreply⟩)
    · refine ⟨?_, ?_⟩
      · intro a ha
        cases ha
      · intro count c' s' hr hpos
        cases hr
        exact absurd hpos (lt_irrefl 0)
    · refine ⟨?_, ?_⟩
      · rw [hacc.recvAccesses, handlerAccesses_inConn_iff (length_received hlen) hacc]
        exact ⟨hends, hreply⟩
      · intro count c' s' hr hpos
        have hrange := hacc.answers hr hpos
        refine ⟨hrange, ?_⟩
        intro len hsend
        rw [sendCb_eq hsend]
        exact hrange

end Reactor

/-- The packet `EXIST a`. -/
def existPacket : List UInt8 := packet 5 0 0 [97]

theorem recvCb_contained_iff_exist : Contained plainScores ⟨checkedConfig, .empty⟩ 0 roomyHost
    freshStore Conn.register existPacket := by
  have hread : TcpHeader.read (received existPacket) = ⟨tcpMagic, tcpVersion, 5, 1, 0, 0⟩ := by
    rw [received, existPacket, read_packet (by decide) (by decide) (by decide) (by decide)]
    rfl
  refine (recvCb_contained_iff (by decide)).mpr (.inr ⟨?_, ?_, ?_⟩)
  · rw [received]
    refine packet_accepted (by decide) (by decide) (by decide) (by decide)
      (Nat.le_refl existPacket.length) ?_
    rw [List.length_append, existPacket]
    omega
  · rw [hread]
    exact .inr (by decide)
  · intro p _
    rw [hread]
    refine ⟨fun v hv => hv.elim, ?_⟩
    rintro es ⟨hcmd, -⟩
    cases hcmd

/-- One byte is too short for a header, and the code for this goes to `send` as a length. -/
theorem recvCb_sends_code :
    (∃ c, recvCb plainScores ⟨checkedConfig, .empty⟩ 0 roomyHost freshStore Conn.register [75] =
      some (1, c, freshStore) ∧ sendCb c = some (-1)) ∧
    ¬ ∀ bytes : List UInt8, bytes.length ≤ bufferLength →
      Contained plainScores ⟨checkedConfig, .empty⟩ 0 roomyHost freshStore Conn.register bytes := by
  have hcode : kvsTcpProtocol plainScores ⟨checkedConfig, .empty⟩ 0 roomyHost freshStore
      (received [75]) 1 = some ⟨-1, received [75], [], freshStore⟩ := if_pos (by decide)
  refine ⟨⟨⟨received [75], 1, Conn.register.wbuffer, -1⟩, ?_, rfl⟩, fun hall => ?_⟩
  · rw [recvCb, if_neg (List.cons_ne_nil _ _), kvsRequest]
    change Option.map _ (Option.bind (kvsTcpProtocol plainScores ⟨checkedConfig, .empty⟩ 0 roomyHost
      freshStore (received [75]) 1) _) = _
    rw [hcode]
    rfl
  have hacc := accepted_of_contained (by decide) (by decide) (hall [75] (by decide))
  exact absurd hacc.header (by decide)

end KvStore
