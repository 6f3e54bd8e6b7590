import KvStore.Protocol.Payload

/-! `server_reader` of `ntyco.c`: one connection with a buffer of 4096 bytes. Each `recv` is
followed by a loop over the packets that are complete; the handler works in the buffer itself,
and what is behind a packet is moved to the front. A call of the handler that does not come back
gives `none`. -/
namespace KvStore
open Endian

/-- `sizeof(buffer)`. -/
def readerBufferSize : ℕ := 4096

/-- The local variables of `server_reader`, the store, and what has gone to the handler and to
`send`. `closed` tells that the function has returned. -/
structure Reader (S : Type*) where
  buffer : List UInt8
  bufferLen : ℕ
  closed : Bool
  store : Store S
  calls : List (List UInt8)
  sent : List (List UInt8)

/-- The reader of a new connection. -/
def Reader.start {S : Type*} (s : Store S) : Reader S :=
  ⟨List.replicate readerBufferSize 0, 0, false, s, [], []⟩

/-- What is sent: the header of the request with the length of the response, and the response. -/
def sendBuf (header : TcpHeader) (response : List UInt8) : List UInt8 :=
  TcpHeader.bytes { header with dataLen := response.length } ++ response

/-- `memmove(buffer, buffer + from, n)`. -/
def memmove (buffer : List UInt8) (i n : ℕ) : List UInt8 :=
  (buffer.drop i).take n ++ buffer.drop n

section Loop

variable {S : Type*} [Comparisons S] (P : Scores S) (cfg : ServerConfig) (w : ℕ → ℕ × Host)

/-- The loop over complete packets, in at most the given number of rounds. `w` has for every call
of the handler what the system answers, and a bound on the rounds of its loops. -/
def handlePackets : ℕ → Reader S → Option (Reader S)
  | 0, r => some r
  | n + 1, r =>
    if r.bufferLen < tcpHeaderSize then some r
    else
      let parsed := parseTcpHeader r.buffer
      let header := parsed.2
      if parsed.1 < 0 then some { r with closed := true }
      else
        let totalLen := tcpHeaderSize + header.dataLen
        if r.bufferLen < totalLen then some r
        else
          let sys := w r.calls.length
          (kvsTcpProtocol P cfg sys.1 sys.2 r.store r.buffer totalLen).bind fun h =>
          handlePackets n
            { buffer := memmove h.buffer totalLen (r.bufferLen - totalLen)
              bufferLen := r.bufferLen - totalLen
              closed := false
              store := h.store
              calls := r.calls ++ [r.buffer.take totalLen]
              sent := if 0 < h.ret then r.sent ++ [sendBuf header (h.response.take h.ret.toNat)]
                else r.sent }

/-- One `recv` that gives `chunk`, and the loop behind it. It never gives more bytes than it was
asked for, and none only at the end of the stream. -/
def Reader.recv (r : Reader S) (chunk : List UInt8) : Option (Reader S) :=
  if r.closed then some r
  else if readerBufferSize - r.bufferLen < chunk.length then none
  else if chunk = [] then some { r with closed := true }
  else
    let buffer := r.buffer.take r.bufferLen ++
      (chunk ++ r.buffer.drop (r.bufferLen + chunk.length))
    let bufferLen := r.bufferLen + chunk.length
    handlePackets P cfg w bufferLen { r with buffer := buffer, bufferLen := bufferLen }

def serverReader (r : Reader S) : List (List UInt8) → Option (Reader S)
  | [] => some r
  | chunk :: chunks => (r.recv P cfg w chunk).bind fun r => serverReader r chunks

end Loop

/-- A request packet as a client sends it. -/
structure RequestPacket where
  cmdType : ℕ
  seqId : ℕ
  flags : ℕ
  payload : List UInt8
  cmdType_lt : cmdType < 2 ^ 32
  seqId_lt : seqId < 2 ^ 32
  flags_lt : flags < 2 ^ 32
  payload_le : payload.length ≤ 1024

namespace RequestPacket

variable {p : RequestPacket} {rest : List UInt8}

def bytes (p : RequestPacket) : List UInt8 := packet p.cmdType p.seqId p.flags p.payload

def header (p : RequestPacket) : TcpHeader :=
  ⟨tcpMagic, tcpVersion, p.cmdType, p.payload.length, p.seqId, p.flags⟩

theorem length_bytes (p : RequestPacket) : p.bytes.length = tcpHeaderSize + p.payload.length :=
  length_packet _ _ _ _

theorem bytes_ne (p : RequestPacket) : p.bytes ≠ [] := by
  intro hnil
  have hlen := p.length_bytes
  rw [hnil, tcpHeaderSize, List.length_nil] at hlen
  omega

theorem parse (p : RequestPacket) (rest : List UInt8) :
    parseTcpHeader (p.bytes ++ rest) = (0, p.header) := by
  have hread : TcpHeader.read (p.bytes ++ rest) = p.header :=
    read_packet p.cmdType_lt p.seqId_lt p.flags_lt p.payload_le rest
  have hle : ¬ 1024 < p.payload.length := not_lt.mpr p.payload_le
  simp only [parseTcpHeader, hread]
  simp [header, hle]

/-- The arguments that the payload is split into. -/
def args (payload : List UInt8) : Option CString × Option CString :=
  if payload = [] then (none, none)
  else
    let data := CString.read payload
    match data.strchr space with
    | none => (some data, none)
    | some i => (some (data.truncate i), some (data.drop (i + 1)))

/-- The reply that is sent for a response of the handler. -/
def reply (p : RequestPacket) (response : List UInt8) : List UInt8 := sendBuf p.header response

section Handle

variable {S : Type*} [Comparisons S] (P : Scores S) (cfg : ServerConfig)

/-- The request in a buffer by itself: the response and the store behind it. -/
def handle (p : RequestPacket) (sys : ℕ × Host) (s : Store S) : Option (List UInt8 × Store S) :=
  (kvsTcpProtocol P cfg sys.1 sys.2 s (p.bytes ++ [0]) p.bytes.length).map fun h =>
    (h.response, h.store)

/-- What the handler leaves behind the packet: a NUL, when there is a payload. -/
def behind (p : RequestPacket) (rest : List UInt8) : List UInt8 :=
  if p.payload = [] then rest else rest.set 0 0

/-- The parser changes the packet itself and the byte behind it. -/
theorem split (p : RequestPacket) (hrest : p.payload ≠ [] → rest ≠ []) : ∃ front : List UInt8,
    front.length = p.bytes.length ∧
    splitPayload (p.bytes ++ rest) p.payload.length =
      some ⟨front ++ p.behind rest, (args p.payload).1, (args p.payload).2⟩ := by
  by_cases hnil : p.payload = []
  · refine ⟨p.bytes, rfl, ?_⟩
    rw [splitPayload, hnil, if_pos List.length_nil, args, if_pos rfl, behind, if_pos hnil]
  · have hlen : tcpHeaderSize + p.payload.length < (p.bytes ++ rest).length := by
      have := List.length_pos_iff.mpr (hrest hnil)
      rw [List.length_append, p.length_bytes]
      omega
    have hdata : ((p.bytes ++ rest).drop tcpHeaderSize).take p.payload.length = p.payload := by
      rw [bytes, packet, List.append_assoc, List.drop_left' (TcpHeader.length_bytes _),
        List.take_left']
      rfl
    have hset : (p.bytes ++ rest).set (tcpHeaderSize + p.payload.length) 0 =
        p.bytes ++ rest.set 0 0 := by
      rw [← p.length_bytes, List.set_append_right _ _ le_rfl, Nat.sub_self]
    rw [splitPayload_eq (List.length_pos_iff.mpr hnil) hlen, hdata, hset, args, if_neg hnil, behind,
      if_neg hnil]
    dsimp only
    cases hchr : (CString.read p.payload).strchr space with
    | none => exact ⟨p.bytes, rfl, rfl⟩
    | some i =>
      refine ⟨p.bytes.set (tcpHeaderSize + i) 0, List.length_set, ?_⟩
      have hlt : tcpHeaderSize + i < p.bytes.length := by
        have hread : (CString.read p.payload).bytes.length ≤ p.payload.length :=
          (List.takeWhile_sublist _).length_le
        have hlen' := (List.findIdx?_eq_some_iff_getElem.mp hchr).1
        rw [p.length_bytes]
        omega
      dsimp only
      rw [List.set_append_left _ _ hlt]

/-- A space in the value stands inside the payload. -/
theorem args_lt {payload : List UInt8} {key value : CString} {i : ℕ}
    (hargs : args payload = (some key, some value)) (hi : value.strchr space = some i) :
    key.length + 1 + i < payload.length := by
  by_cases hnil : payload = []
  · rw [args, if_pos hnil] at hargs
    cases hargs
  rw [args, if_neg hnil] at hargs
  dsimp only at hargs
  have hread : (CString.read payload).bytes.length ≤ payload.length :=
    (List.takeWhile_sublist _).length_le
  cases hchr : (CString.read payload).strchr space with
  | none =>
    rw [hchr] at hargs
    cases hargs
  | some j =>
    rw [hchr] at hargs
    cases hargs
    have hj := (CString.split_of_strchr hchr).2
    have hlt := (List.findIdx?_eq_some_iff_getElem.mp hi).1
    rw [CString.drop, List.length_drop] at hlt
    rw [CString.length, hj]
    omega

/-- The command leaves what is behind the packet as it is. -/
theorem afterCommand (cmd : Option Cmd) {front : List UInt8} (hfront : front.length = p.bytes.length)
    (tail : List UInt8) : ∃ front' : List UInt8, front'.length = p.bytes.length ∧
    Payload.afterCommand ⟨front ++ tail, (args p.payload).1, (args p.payload).2⟩ cmd =
      front' ++ tail := by
  unfold Payload.afterCommand
  split
  · rename_i key value hkey hvalue
    dsimp only at hkey hvalue ⊢
    cases hi : value.strchr space with
    | none => exact ⟨front, hfront, rfl⟩
    | some i =>
      have hlt := args_lt (Prod.ext hkey hvalue) hi
      refine ⟨front.set (tcpHeaderSize + key.length + 1 + i) 0, by rw [List.length_set, hfront], ?_⟩
      dsimp only
      rw [List.set_append_left]
      rw [hfront, p.length_bytes]
      omega
  · exact ⟨front, hfront, rfl⟩

/-- The handler on a packet in front of other bytes: the command on the arguments. -/
theorem call_eq (p : RequestPacket) (hrest : p.payload ≠ [] → rest ≠ []) : ∃ front : List UInt8,
    front.length = p.bytes.length ∧ ∀ (sys : ℕ × Host) (s : Store S),
      kvsTcpProtocol P cfg sys.1 sys.2 s (p.bytes ++ rest) p.bytes.length =
        (runCommand P sys.1 sys.2 s cfg (Cmd.ofCode p.cmdType) (args p.payload).1
          (args p.payload).2).map fun c =>
            ⟨(buildTcpResponse p.cmdType p.seqId c.1).length, front ++ p.behind rest,
              buildTcpResponse p.cmdType p.seqId c.1, c.2⟩ := by
  obtain ⟨front, hfront, hsplit⟩ := p.split hrest
  obtain ⟨front', hfront', hafter⟩ := p.afterCommand (Cmd.ofCode p.cmdType) hfront (p.behind rest)
  refine ⟨front', hfront', ?_⟩
  intro sys s
  have hlen : p.bytes.length ≤ (p.bytes ++ rest).length := by
    rw [List.length_append]
    exact Nat.le_add_right _ _
  have hcall : kvsTcpProtocol P cfg sys.1 sys.2 s (p.bytes ++ rest) p.bytes.length =
      (splitPayload (p.bytes ++ rest) p.payload.length).bind fun a =>
        (runCommand P sys.1 sys.2 s cfg (Cmd.ofCode p.cmdType) a.key a.value).bind fun c =>
          some ⟨(buildTcpResponse p.cmdType p.seqId c.1).length,
            a.afterCommand (Cmd.ofCode p.cmdType), buildTcpResponse p.cmdType p.seqId c.1, c.2⟩ :=
    kvsTcpProtocol_packet p.cmdType_lt p.seqId_lt p.flags_lt p.payload_le le_rfl hlen
  rw [hcall, hsplit, Option.bind_some, hafter]
  cases runCommand P sys.1 sys.2 s cfg (Cmd.ofCode p.cmdType) (args p.payload).1
      (args p.payload).2 with
  | none => rfl
  | some c => rfl

/-- The response and the store are those of the request by itself. -/
theorem call (p : RequestPacket) (hrest : p.payload ≠ [] → rest ≠ []) : ∃ front : List UInt8,
    front.length = p.bytes.length ∧ ∀ sys s,
      kvsTcpProtocol P cfg sys.1 sys.2 s (p.bytes ++ rest) p.bytes.length =
        (p.handle P cfg sys s).map fun r => ⟨r.1.length, front ++ p.behind rest, r.1, r.2⟩ := by
  obtain ⟨front, hfront, hcall⟩ := p.call_eq P cfg hrest
  obtain ⟨front₀, -, halone⟩ := p.call_eq P cfg (fun _ => List.cons_ne_nil 0 [])
  refine ⟨front, hfront, ?_⟩
  intro sys s
  rw [hcall, handle, halone, Option.map_map, Option.map_map]
  rfl

theorem handle_response {sys : ℕ × Host} {s : Store S} {c : List UInt8 × Store S}
    (hc : p.handle P cfg sys s = some c) : tcpHeaderSize ≤ c.1.length := by
  obtain ⟨front, -, halone⟩ := p.call_eq P cfg (fun _ => List.cons_ne_nil 0 [])
  rw [handle, halone, Option.map_map] at hc
  obtain ⟨x, -, rfl⟩ := Option.map_eq_some_iff.mp hc
  rw [Function.comp_apply, buildTcpResponse, List.length_append, TcpHeader.length_bytes]
  exact Nat.le_add_right _ _

end Handle

end RequestPacket

end KvStore
