import KvStore.Protocol.Mutex
import KvStore.Server.Reader

/-! When `server_reader` delivers every packet of a stream. The handler writes a NUL behind a
payload, and the reader moves it to the front as the first byte of the next packet when that has
arrived already; then no later packet is delivered. -/
namespace KvStore

/-- The packets one after the other on the wire. -/
def wire (ps : List RequestPacket) : List UInt8 := ps.flatMap RequestPacket.bytes

/-- The connection is open, and the buffer holds these bytes. -/
structure Reader.Holds {S : Type*} (r : Reader S) (res : List UInt8) : Prop where
  size : r.buffer.length = readerBufferSize
  opened : r.closed = false
  len : r.bufferLen = res.length
  front : ∃ junk, r.buffer = res ++ junk

theorem length_memmove {buffer : List UInt8} {i n : ℕ} (h : i + n ≤ buffer.length) :
    (memmove buffer i n).length = buffer.length := by
  rw [memmove, List.length_append, List.length_take, List.length_drop, List.length_drop]
  omega

theorem RequestPacket.length_behind (p : RequestPacket) (rest : List UInt8) :
    (p.behind rest).length = rest.length := by
  rw [behind]
  split_ifs
  · rfl
  · exact List.length_set

theorem RequestPacket.take_behind (p : RequestPacket) (more junk : List UInt8) :
    (p.behind (more ++ junk)).take more.length = p.behind more := by
  rw [behind, behind]
  split_ifs
  · exact List.take_left
  · rw [List.take_set, List.take_left]

section Rounds

variable {S : Type*} [Comparisons S] {P : Scores S} {cfg : ServerConfig} {w : ℕ → ℕ × Host}
  {r r' : Reader S} {p : RequestPacket} {ps : List RequestPacket} {res more rest : List UInt8}
  {n : ℕ}

variable (P cfg w) in
/-- A packet that is complete goes to the handler. -/
theorem handlePackets_packet (h : r.Holds (p.bytes ++ more)) (n : ℕ) :
    (p.handle P cfg (w r.calls.length) r.store = none → handlePackets P cfg w (n + 1) r = none) ∧
    ∀ c, p.handle P cfg (w r.calls.length) r.store = some c → ∃ r' : Reader S,
      handlePackets P cfg w (n + 1) r = handlePackets P cfg w n r' ∧
      r'.Holds (p.behind more) ∧ r'.calls = r.calls ++ [p.bytes] ∧
      r'.sent = r.sent ++ [p.reply c.1] ∧ r'.store = c.2 := by
  obtain ⟨junk, hbuffer⟩ := h.front
  have hlen := h.len
  have hsize := h.size
  rw [hbuffer, List.append_assoc] at hsize
  rw [List.append_assoc] at hbuffer
  rw [List.length_append, p.length_bytes] at hlen
  rw [List.length_append, p.length_bytes] at hsize
  have hpay := p.payload_le
  have hrest : more ++ junk ≠ [] := by
    intro hnil
    rw [hnil, List.length_nil, tcpHeaderSize, readerBufferSize] at hsize
    omega
  obtain ⟨front, hfront, hcall⟩ := p.call P cfg (fun _ => hrest)
  have hparse := p.parse (more ++ junk)
  have h₁ : ¬ r.bufferLen < tcpHeaderSize := by omega
  have h₂ : ¬ r.bufferLen < tcpHeaderSize + p.header.dataLen := by
    rw [hlen]
    exact not_lt.mpr (Nat.le_add_right _ _)
  have hdata : p.header.dataLen = p.payload.length := rfl
  rw [handlePackets, if_neg h₁, hbuffer, hparse]
  dsimp only
  rw [if_neg (lt_irrefl 0), if_neg h₂, hdata, ← p.length_bytes, hcall]
  constructor
  · intro hnone
    rw [hnone]
    rfl
  · intro c hc
    rw [hc]
    refine ⟨_, rfl, ?_, ?_, ?_, rfl⟩
    · have hmore : r.bufferLen - p.bytes.length = more.length := by
        rw [p.length_bytes]
        omega
      have htotal : (front ++ p.behind (more ++ junk)).length = readerBufferSize := by
        rw [List.length_append, hfront, p.length_bytes, p.length_behind]
        exact hsize
      refine ⟨?_, rfl, ?_, (front ++ p.behind (more ++ junk)).drop more.length, ?_⟩
      · dsimp only
        rw [hmore, length_memmove, htotal]
        rw [htotal, ← hsize, List.length_append, p.length_bytes]
        omega
      · dsimp only
        rw [hmore, p.length_behind]
      · dsimp only
        rw [memmove, hmore, ← hfront, List.drop_left, p.take_behind]
    · dsimp only
      rw [List.take_left]
    · have hpos : (0 : ℤ) < c.1.length := by
        have hlong := RequestPacket.handle_response P cfg hc
        rw [tcpHeaderSize] at hlong
        omega
      dsimp only
      rw [if_pos hpos, Int.toNat_natCast, List.take_length]
      rfl

/-- A packet that is not complete waits for more. -/
theorem handlePackets_incomplete (h : r.Holds res) (hres : res ++ rest = p.bytes ++ more)
    (hlt : res.length < p.bytes.length) (n : ℕ) : handlePackets P cfg w n r = some r := by
  cases n with
  | zero => rfl
  | succ n =>
    obtain ⟨junk, hbuffer⟩ := h.front
    rw [handlePackets]
    by_cases hshort : r.bufferLen < tcpHeaderSize
    · rw [if_pos hshort]
    · -- the header is there
      have hlong : tcpHeaderSize ≤ res.length := by
        rw [← h.len]
        exact not_lt.mp hshort
      have htake : (res ++ junk).take tcpHeaderSize = (p.bytes ++ more).take tcpHeaderSize := by
        rw [← hres, List.take_append_of_le_length hlong, List.take_append_of_le_length hlong]
      have hparse : parseTcpHeader r.buffer = (0, p.header) := by
        rw [hbuffer, ← parseTcpHeader_take, htake, parseTcpHeader_take, p.parse]
      have hwait : r.bufferLen < tcpHeaderSize + p.header.dataLen := by
        rw [h.len]
        rw [p.length_bytes] at hlt
        exact hlt
      rw [if_neg hshort, hparse]
      dsimp only
      rw [if_neg (lt_irrefl 0), if_pos hwait]

theorem handlePackets_empty (h : r.Holds []) (n : ℕ) : handlePackets P cfg w n r = some r := by
  cases n with
  | zero => rfl
  | succ n =>
    rw [handlePackets, if_pos]
    rw [h.len, List.length_nil]
    decide

variable (P cfg w) in
/-- With a NUL in front no packet is found. -/
theorem handlePackets_nul (h : r.Holds (0 :: more)) (n : ℕ) :
    handlePackets P cfg w n r = some r ∨
      handlePackets P cfg w n r = some { r with closed := true } := by
  cases n with
  | zero => exact .inl rfl
  | succ n =>
    obtain ⟨junk, hbuffer⟩ := h.front
    rw [handlePackets]
    by_cases hshort : r.bufferLen < tcpHeaderSize
    · exact .inl (by rw [if_pos hshort])
    · right
      have hlong : tcpHeaderSize ≤ (more ++ junk).length + 1 := by
        have hlen := h.len
        rw [List.length_cons] at hlen
        rw [List.length_append]
        omega
      have hneg : (parseTcpHeader r.buffer).1 < 0 := by
        rw [hbuffer]
        exact parseTcpHeader_nul hlong
      rw [if_neg hshort]
      dsimp only
      rw [if_pos hneg]

variable (P cfg w) in
/-- What is received stands behind what the buffer held. -/
theorem Reader.Holds.recv {chunk : List UInt8} (h : r.Holds res) (hne : chunk ≠ [])
    (hroom : res.length + chunk.length ≤ readerBufferSize) : ∃ r₁ : Reader S,
    r.recv P cfg w chunk = handlePackets P cfg w (res.length + chunk.length) r₁ ∧
    r₁.Holds (res ++ chunk) ∧ r₁.calls = r.calls ∧ r₁.sent = r.sent ∧ r₁.store = r.store := by
  obtain ⟨junk, hbuffer⟩ := h.front
  have hsize := h.size
  rw [hbuffer, List.length_append] at hsize
  have hfits : ¬ readerBufferSize - r.bufferLen < chunk.length := by
    rw [h.len]
    omega
  rw [Reader.recv, h.opened, if_neg (by decide), if_neg hfits, if_neg hne, h.len]
  refine ⟨_, rfl, ⟨?_, rfl, ?_, ?_⟩, rfl, rfl, rfl⟩
  · dsimp only
    rw [hbuffer, List.take_left, List.length_append, List.length_append, List.length_drop,
      List.length_append]
    omega
  · dsimp only
    rw [List.length_append]
  · refine ⟨r.buffer.drop (res.length + chunk.length), ?_⟩
    dsimp only
    rw [hbuffer, List.take_left, List.append_assoc]

/-- A reader with a NUL in front calls the handler no more. -/
theorem serverReader_nul {cs : List (List UInt8)} (h : r.closed = true ∨ ∃ more, r.Holds (0 :: more))
    (hr : serverReader P cfg w r cs = some r') : r'.calls = r.calls := by
  induction cs generalizing r with
  | nil =>
    cases hr
    rfl
  | cons chunk cs ih =>
    obtain ⟨r₁, hrecv, hr⟩ := Option.bind_eq_some_iff.mp hr
    by_cases hclosed : r.closed = true
    · rw [Reader.recv, if_pos hclosed] at hrecv
      cases hrecv
      exact ih (.inl hclosed) hr
    obtain ⟨more, h⟩ := h.resolve_left hclosed
    by_cases hroom : readerBufferSize - r.bufferLen < chunk.length
    · rw [Reader.recv, if_neg hclosed, if_pos hroom] at hrecv
      cases hrecv
    by_cases hne : chunk = []
    · rw [Reader.recv, if_neg hclosed, if_neg hroom, if_pos hne] at hrecv
      cases hrecv
      exact ih (r := { r with closed := true }) (.inl rfl) hr
    have hfits : (0 :: more).length + chunk.length ≤ readerBufferSize := by
      have hlen := h.len
      obtain ⟨junk, hbuffer⟩ := h.front
      have hsize := h.size
      rw [hbuffer, List.length_append] at hsize
      omega
    obtain ⟨r₂, he, h₂, hcalls, -⟩ := h.recv P cfg w hne hfits
    rw [he] at hrecv
    obtain hloop | hloop := handlePackets_nul P cfg w h₂
      ((0 :: more).length + chunk.length)
    · rw [hloop] at hrecv
      cases hrecv
      rw [ih (.inr ⟨_, h₂⟩) hr, hcalls]
    · rw [hloop] at hrecv
      cases hrecv
      rw [ih (.inl rfl) hr, hcalls]

/-- The packets by themselves, one after the other from call number `i` on: the replies, and the
store behind them. -/
def serveAlone (P : Scores S) (cfg : ServerConfig) (w : ℕ → ℕ × Host) :
    ℕ → Store S → List RequestPacket → Option (List (List UInt8) × Store S)
  | _, s, [] => some ([], s)
  | i, s, p :: ps =>
    (p.handle P cfg (w i) s).bind fun c =>
    (serveAlone P cfg w (i + 1) c.2 ps).map fun x => (p.reply c.1 :: x.1, x.2)

/-- From a reader on, these packets and no others went to the handler, and their replies were
sent. -/
def Follows (P : Scores S) (cfg : ServerConfig) (w : ℕ → ℕ × Host) (x : Option (Reader S))
    (r : Reader S) (ps : List RequestPacket) : Prop :=
  ∃ r' sent, x = some r' ∧ r'.calls = r.calls ++ ps.map RequestPacket.bytes ∧
    r'.sent = r.sent ++ sent ∧ serveAlone P cfg w r.calls.length r.store ps = some (sent, r'.store)

theorem Follows.cons_iff {x : Option (Reader S)} {c : List UInt8 × Store S}
    (hc : p.handle P cfg (w r.calls.length) r.store = some c) (hcalls : r'.calls = r.calls ++ [p.bytes])
    (hsent : r'.sent = r.sent ++ [p.reply c.1]) (hstore : r'.store = c.2) :
    Follows P cfg w x r (p :: ps) ↔ Follows P cfg w x r' ps := by
  have hlen : r'.calls.length = r.calls.length + 1 := by
    rw [hcalls, List.length_append]
    rfl
  simp only [Follows, serveAlone, hc, Option.bind_some, hcalls, hsent, hstore, List.map_cons,
    Option.map_eq_some_iff, List.length_append, List.length_singleton, List.append_assoc,
    List.singleton_append]
  constructor
  · rintro ⟨r₁, sent, hx, hcalls₁, hsent₁, ⟨sent', s'⟩, hserve, he⟩
    cases he
    exact ⟨r₁, sent', hx, hcalls₁, hsent₁, hserve⟩
  · rintro ⟨r₁, sent, hx, hcalls₁, hsent₁, hserve⟩
    exact ⟨r₁, _, hx, hcalls₁, hsent₁, _, hserve, rfl⟩

theorem serveAlone_cons_isSome {s : Store S} {i : ℕ} {c : List UInt8 × Store S}
    (hc : p.handle P cfg (w i) s = some c) : (serveAlone P cfg w i s (p :: ps)).isSome ↔
      (serveAlone P cfg w (i + 1) c.2 ps).isSome := by
  rw [serveAlone, hc, Option.bind_some, Option.isSome_map]

end Rounds

section Cuts

variable {p : RequestPacket} {ps : List RequestPacket} {cs : List (List UInt8)} {c : List UInt8}
  {n : ℕ}

/-- With `n` bytes received, the pieces are not empty, and each has room in the buffer behind the
bytes of the packets that are not complete. -/
def Cut (n : ℕ) (ps : List RequestPacket) (cs : List (List UInt8)) : Prop :=
  ∀ pre c post, cs = pre ++ c :: post → c ≠ [] ∧ ∃ a b, ps = a ++ b ∧
    (wire a).length ≤ n + pre.flatten.length ∧
    n + pre.flatten.length + c.length ≤ (wire a).length + readerBufferSize

/-- Every packet with a payload, the last one excepted, ends where a piece ends. -/
def Aligned (n : ℕ) (ps : List RequestPacket) (cs : List (List UInt8)) : Prop :=
  ∀ a p b, ps = a ++ p :: b → b ≠ [] → p.payload ≠ [] → ∃ pre post, cs = pre ++ post ∧
    n + pre.flatten.length = (wire (a ++ [p])).length

theorem wire_cons (p : RequestPacket) (ps : List RequestPacket) :
    wire (p :: ps) = p.bytes ++ wire ps := List.flatMap_cons

theorem Cut.tail (h : Cut n ps (c :: cs)) : Cut (n + c.length) ps cs := by
  rintro pre d post rfl
  obtain ⟨hd, a, b, hab, hle, hroom⟩ := h (c :: pre) d post rfl
  rw [List.flatten_cons, List.length_append] at hle hroom
  exact ⟨hd, a, b, hab, by omega, by omega⟩

theorem Cut.drop (h : Cut (p.bytes.length + n) (p :: ps) cs) : Cut n ps cs := by
  rintro pre d post rfl
  obtain ⟨hd, a, b, hab, hle, hroom⟩ := h pre d post rfl
  refine ⟨hd, ?_⟩
  cases a with
  | nil =>
    refine ⟨[], ps, rfl, Nat.zero_le _, ?_⟩
    rw [wire, List.flatMap_nil, List.length_nil] at hroom ⊢
    omega
  | cons q a =>
    obtain ⟨rfl, rfl⟩ := List.cons.inj hab
    rw [wire_cons, List.length_append] at hle hroom
    exact ⟨a, b, rfl, by omega, by omega⟩

/-- While the first packet is not complete, the whole buffer but for its bytes is free. -/
theorem Cut.room (h : Cut n (p :: ps) (c :: cs)) (hn : n < p.bytes.length) :
    c ≠ [] ∧ n + c.length ≤ readerBufferSize := by
  obtain ⟨hc, a, b, hab, hle, hroom⟩ := h [] c cs rfl
  refine ⟨hc, ?_⟩
  cases a with
  | nil =>
    rw [wire, List.flatMap_nil, List.length_nil] at hroom
    simpa using hroom
  | cons q a =>
    obtain ⟨rfl, rfl⟩ := List.cons.inj hab
    rw [wire_cons, List.length_append] at hle
    simp only [List.flatten_nil, List.length_nil] at hle
    omega

theorem aligned_tail (hn : ∀ p ∈ ps.head?, n < p.bytes.length) :
    Aligned n ps (c :: cs) ↔ Aligned (n + c.length) ps cs := by
  constructor
  · intro h a p b hps hb hp
    obtain ⟨pre, post, hsplit, hlen⟩ := h a p b hps hb hp
    cases pre with
    | nil =>
      -- the first packet is not complete yet, so no packet ends here
      have hfirst : n < (wire (a ++ [p])).length := by
        cases a with
        | nil =>
          have := hn p (by rw [hps]; rfl)
          rw [List.nil_append, wire_cons, List.length_append]
          omega
        | cons q a =>
          have := hn q (by rw [hps]; rfl)
          rw [List.cons_append, wire_cons, List.length_append]
          omega
      simp only [List.flatten_nil, List.length_nil] at hlen
      omega
    | cons d pre =>
      obtain ⟨rfl, rfl⟩ := List.cons.inj hsplit
      rw [List.flatten_cons, List.length_append] at hlen
      exact ⟨pre, post, rfl, by omega⟩
  · intro h a p b hps hb hp
    obtain ⟨pre, post, rfl, hlen⟩ := h a p b hps hb hp
    refine ⟨c :: pre, post, rfl, ?_⟩
    rw [List.flatten_cons, List.length_append]
    omega

/-- Behind a complete packet nothing has arrived, or it has no payload and no NUL is written. -/
theorem aligned_cons : Aligned (p.bytes.length + n) (p :: ps) cs ↔
    (ps = [] ∨ p.payload = [] ∨ n = 0) ∧ Aligned n ps cs := by
  constructor
  · intro h
    constructor
    · by_contra hno
      simp only [not_or] at hno
      obtain ⟨pre, post, -, hlen⟩ := h [] p ps rfl hno.1 hno.2.1
      rw [List.nil_append, wire_cons, wire, List.flatMap_nil, List.append_nil] at hlen
      omega
    · intro a q b hps hb hq
      obtain ⟨pre, post, hsplit, hlen⟩ := h (p :: a) q b (by rw [hps]; rfl) hb hq
      rw [List.cons_append, wire_cons, List.length_append] at hlen
      exact ⟨pre, post, hsplit, by omega⟩
  · rintro ⟨hfirst, h⟩ a q b hps hb hq
    cases a with
    | nil =>
      obtain ⟨rfl, rfl⟩ := List.cons.inj hps
      obtain hn : n = 0 := (hfirst.resolve_left hb).resolve_left hq
      refine ⟨[], cs, rfl, ?_⟩
      rw [List.nil_append, wire_cons, wire, List.flatMap_nil, List.append_nil, hn]
      rfl
    | cons x a =>
      obtain ⟨rfl, rfl⟩ := List.cons.inj hps
      obtain ⟨pre, post, hsplit, hlen⟩ := h a q b rfl hb hq
      refine ⟨pre, post, hsplit, ?_⟩
      rw [List.cons_append, wire_cons, List.length_append]
      omega

/-- A stream that the buffer has room for may be cut anywhere. -/
theorem cut_of_small (hne : ∀ c ∈ cs, c ≠ []) (hlen : cs.flatten.length ≤ readerBufferSize) :
    Cut 0 ps cs := by
  rintro pre c post rfl
  refine ⟨hne c (by simp), [], ps, rfl, Nat.zero_le _, ?_⟩
  rw [List.flatten_append, List.flatten_cons, List.length_append, List.length_append] at hlen
  rw [wire, List.flatMap_nil, List.length_nil]
  omega

/-- One packet a piece. -/
theorem aligned_map (ps : List RequestPacket) : Aligned 0 ps (ps.map RequestPacket.bytes) := by
  rintro a p b rfl - -
  refine ⟨(a ++ [p]).map RequestPacket.bytes, b.map RequestPacket.bytes, ?_, ?_⟩
  · rw [← List.map_append, List.append_assoc]
    rfl
  · rw [Nat.zero_add, wire, List.flatMap_def]

end Cuts

section Delivery

variable {S : Type*} [Comparisons S] {P : Scores S} {cfg : ServerConfig} {w : ℕ → ℕ × Host}
  {r : Reader S} {ps : List RequestPacket} {cs : List (List UInt8)} {res : List UInt8} {n : ℕ}

/-- What is left to show of a reader: the packets go to the handler exactly when they can be
handled and are aligned. -/
def Settles (P : Scores S) (cfg : ServerConfig) (w : ℕ → ℕ × Host) (x : Option (Reader S))
    (r : Reader S) (n : ℕ) (ps : List RequestPacket) (cs : List (List UInt8)) : Prop :=
  Follows P cfg w x r ps ↔
    (serveAlone P cfg w r.calls.length r.store ps).isSome ∧ Aligned n ps cs

variable (P cfg w) in
/-- The loop settles what the next pieces settle from a buffer without a complete packet. -/
theorem handlePackets_settles
    (hnext : ∀ (r : Reader S) res ps, r.Holds res → res ++ cs.flatten = wire ps →
      Cut res.length ps cs → (∀ p ∈ ps.head?, res.length < p.bytes.length) →
      Settles P cfg w (serverReader P cfg w r cs) r res.length ps cs)
    (h : r.Holds res) (hn : res.length ≤ n) (hwire : res ++ cs.flatten = wire ps)
    (hcut : Cut res.length ps cs) :
    Settles P cfg w ((handlePackets P cfg w n r).bind fun r => serverReader P cfg w r cs) r
      res.length ps cs := by
  induction ps generalizing r res n with
  | nil =>
    obtain ⟨rfl, -⟩ := List.append_eq_nil_iff.mp hwire
    rw [handlePackets_empty h, Option.bind_some]
    exact hnext r [] [] h hwire hcut (by simp)
  | cons p ps ih =>
    rw [wire_cons] at hwire
    by_cases hlt : res.length < p.bytes.length
    · rw [handlePackets_incomplete h hwire hlt, Option.bind_some]
      apply hnext r res (p :: ps) h (by rwa [wire_cons]) hcut
      intro q hq
      cases hq
      exact hlt
    obtain ⟨more, rfl, hmore⟩ : ∃ more, res = p.bytes ++ more ∧ more ++ cs.flatten = wire ps := by
      have hprefix : p.bytes <+: p.bytes ++ wire ps := List.prefix_append _ _
      obtain ⟨more, hsplit⟩ :=
        List.prefix_of_prefix_length_le hprefix ⟨cs.flatten, hwire⟩ (not_lt.mp hlt)
      refine ⟨more, hsplit.symm, ?_⟩
      rw [← hsplit, List.append_assoc] at hwire
      exact List.append_cancel_left hwire
    rw [List.length_append] at hn hcut
    have hpos : 0 < p.bytes.length := by
      rw [p.length_bytes, tcpHeaderSize]
      omega
    obtain ⟨n, rfl⟩ : ∃ k, n = k + 1 := ⟨n - 1, by omega⟩
    obtain ⟨hnone, hsome⟩ := handlePackets_packet P cfg w h n
    cases hc : p.handle P cfg (w r.calls.length) r.store with
    | none =>
      simp [Settles, Follows, hnone hc, serveAlone, hc]
    | some c =>
      obtain ⟨r', hround, h', hcalls, hsent, hstore⟩ := hsome c hc
      rw [Settles, hround, Follows.cons_iff hc hcalls hsent hstore, List.length_append, aligned_cons,
        serveAlone_cons_isSome hc]
      have hlen : r'.calls.length = r.calls.length + 1 := by
        rw [hcalls, List.length_append]
        rfl
      rw [← hlen, ← hstore]
      by_cases hclean : p.payload = [] ∨ more = []
      · -- the rest of the buffer is as it was received
        have hbehind : p.behind more = more := by
          rw [RequestPacket.behind]
          split_ifs with hp
          · rfl
          · rw [hclean.resolve_left hp]
            rfl
        rw [hbehind] at h'
        have hih := ih (n := n) h' (by omega) hmore hcut.drop
        rw [Settles] at hih
        rw [hih]
        have hfirst : ps = [] ∨ p.payload = [] ∨ more.length = 0 := by
          right
          rwa [List.length_eq_zero_iff]
        simp only [hfirst, true_and]
      · -- the NUL stands in front of what has arrived of the next packet
        rw [not_or] at hclean
        obtain ⟨x, tail, rfl⟩ := List.exists_cons_of_ne_nil hclean.2
        have hps : ps ≠ [] := by
          rintro rfl
          cases hmore
        have hbehind : p.behind (x :: tail) = 0 :: tail := by
          rw [RequestPacket.behind, if_neg hclean.1]
          rfl
        rw [hbehind] at h'
        have hfirst : ¬ (ps = [] ∨ p.payload = [] ∨ (x :: tail).length = 0) := by
          simp [hps, hclean.1]
        simp only [hfirst, false_and, and_false, iff_false]
        rintro ⟨r₁, sent, hrun, hcalls₁, -⟩
        have hsame : r₁.calls = r'.calls := by
          obtain hloop | hloop := handlePackets_nul P cfg w h' n
          · rw [hloop] at hrun
            exact serverReader_nul (.inr ⟨tail, h'⟩) hrun
          · rw [hloop] at hrun
            exact serverReader_nul (r := { r' with closed := true }) (.inl rfl) hrun
        rw [hsame, List.self_eq_append_right, List.map_eq_nil_iff] at hcalls₁
        exact hps hcalls₁

/-- A reader with less than a packet in its buffer settles the rest of the stream. -/
theorem serverReader_settles (h : r.Holds res) (hwire : res ++ cs.flatten = wire ps)
    (hcut : Cut res.length ps cs) (hfirst : ∀ p ∈ ps.head?, res.length < p.bytes.length) :
    Settles P cfg w (serverReader P cfg w r cs) r res.length ps cs := by
  induction cs generalizing r res ps with
  | nil =>
    rw [List.flatten_nil, List.append_nil] at hwire
    obtain rfl : ps = [] := by
      cases ps with
      | nil => rfl
      | cons p ps =>
        have hlt := hfirst p rfl
        rw [hwire, wire_cons, List.length_append] at hlt
        omega
    simp [Settles, Follows, serverReader, serveAlone, Aligned]
  | cons c cs ih =>
    rw [List.flatten_cons, ← List.append_assoc] at hwire
    obtain ⟨hne, hroom⟩ : c ≠ [] ∧ res.length + c.length ≤ readerBufferSize := by
      cases ps with
      | nil =>
        have hnil := List.append_eq_nil_iff.mp (List.append_eq_nil_iff.mp hwire).1
        exact absurd hnil.2 (hcut [] c cs rfl).1
      | cons p ps => exact hcut.room (hfirst p rfl)
    obtain ⟨r₁, hrecv, h₁, hcalls, hsent, hstore⟩ := h.recv P cfg w hne hroom
    have hcut' : Cut (res ++ c).length ps cs := by
      rw [List.length_append]
      exact hcut.tail
    have hloop := handlePackets_settles P cfg w (n := res.length + c.length)
      (fun r res ps h hwire hcut hfirst => ih h hwire hcut hfirst) h₁ (by rw [List.length_append])
      hwire hcut'
    rw [Settles, List.length_append, hcalls, hstore] at hloop
    rw [Settles, aligned_tail hfirst, serverReader, hrecv, ← hloop, Follows, Follows, hcalls, hsent,
      hstore]

/-- All packets of a stream go to the handler in order and with their own bytes, each is answered
as it is by itself, and their replies are sent. -/
def Delivers (P : Scores S) (cfg : ServerConfig) (w : ℕ → ℕ × Host) (s : Store S)
    (ps : List RequestPacket) (cs : List (List UInt8)) : Prop :=
  ∃ r, serverReader P cfg w (.start s) cs = some r ∧ r.calls = ps.map RequestPacket.bytes ∧
    r.sent.length = ps.length ∧ serveAlone P cfg w 0 s ps = some (r.sent, r.store)

theorem serveAlone_length {i : ℕ} {s s' : Store S} {sent : List (List UInt8)}
    (h : serveAlone P cfg w i s ps = some (sent, s')) : sent.length = ps.length := by
  induction ps generalizing i s sent with
  | nil =>
    cases h
    rfl
  | cons p ps ih =>
    obtain ⟨c, -, h⟩ := Option.bind_eq_some_iff.mp h
    obtain ⟨⟨sent', s''⟩, hserve, he⟩ := Option.map_eq_some_iff.mp h
    cases he
    rw [List.length_cons, List.length_cons, ih hserve]

theorem delivers_iff_follows {s : Store S} : Delivers P cfg w s ps cs ↔
    Follows P cfg w (serverReader P cfg w (.start s) cs) (.start s) ps := by
  constructor
  · rintro ⟨r, hrun, hcalls, -, hserve⟩
    exact ⟨r, r.sent, hrun, hcalls, rfl, hserve⟩
  · rintro ⟨r, sent, hrun, hcalls, hsent, hserve⟩
    obtain rfl : r.sent = sent := hsent
    exact ⟨r, hrun, hcalls, serveAlone_length hserve, hserve⟩

omit [Comparisons S] in
theorem start_holds (s : Store S) : (Reader.start s).Holds [] :=
  ⟨List.length_replicate, rfl, rfl, _, rfl⟩

theorem start_settles (s : Store S) (hcs : cs.flatten = wire ps) (hcut : Cut 0 ps cs) :
    Settles P cfg w (serverReader P cfg w (.start s) cs) (.start s) 0 ps cs := by
  apply serverReader_settles (start_holds s) hcs hcut
  intro p _
  rw [p.length_bytes, List.length_nil, tcpHeaderSize]
  omega

theorem Delivers.aligned {s : Store S} (h : Delivers P cfg w s ps cs) (hcs : cs.flatten = wire ps)
    (hcut : Cut 0 ps cs) : Aligned 0 ps cs :=
  ((start_settles s hcs hcut).mp (delivers_iff_follows.mp h)).2

/-- For every stream of packets and every way to cut it, the reader delivers the packets exactly
when the handler comes back from each of them and every packet with a payload, the last one
excepted, ends where a piece ends. -/
theorem serverReader_delivers_iff (P : Scores S) (cfg : ServerConfig) (w : ℕ → ℕ × Host)
    (s : Store S) (hcs : cs.flatten = wire ps) (hcut : Cut 0 ps cs) :
    Delivers P cfg w s ps cs ↔
      (serveAlone P cfg w 0 s ps).isSome ∧ Aligned 0 ps cs := by
  rw [delivers_iff_follows]
  exact start_settles s hcs hcut

end Delivery

/-- `EXIST a`. -/
def existLetter : RequestPacket where
  cmdType := Cmd.exist.code
  seqId := 0
  flags := 0
  payload := [97]
  cmdType_lt := by decide
  seqId_lt := by decide
  flags_lt := by decide
  payload_le := by decide

/-- Two requests in two pieces. -/
theorem serverReader_delivers_iff_apart :
    [existLetter.bytes, existLetter.bytes].flatten = wire [existLetter, existLetter] ∧
    Delivers plainScores ⟨checkedConfig, .empty⟩ (fun _ => (0, roomyHost)) freshStore
      [existLetter, existLetter] [existLetter.bytes, existLetter.bytes] := by
  refine ⟨rfl, (serverReader_delivers_iff _ _ _ _ rfl ?_).mpr ⟨rfl, ?_⟩⟩
  · exact cut_of_small (by decide) (by decide)
  · exact aligned_map [existLetter, existLetter]

/-- Two requests in one piece: the second one arrives with a NUL for its first byte. -/
theorem serverReader_spoils_next :
    ¬ Delivers plainScores ⟨checkedConfig, .empty⟩ (fun _ => (0, roomyHost)) freshStore
      [existLetter, existLetter] [existLetter.bytes ++ existLetter.bytes] := by
  have hcut : Cut 0 [existLetter, existLetter] [existLetter.bytes ++ existLetter.bytes] :=
    cut_of_small (by decide) (by decide)
  intro h
  obtain ⟨pre, post, hsplit, hlen⟩ := h.aligned (by decide) hcut [] existLetter [existLetter] rfl
    (List.cons_ne_nil _ _) (by decide)
  cases pre with
  | nil =>
    revert hlen
    decide
  | cons c pre =>
    obtain ⟨rfl, hnil⟩ := List.cons.inj hsplit
    obtain ⟨rfl, -⟩ := List.append_eq_nil_iff.mp hnil.symm
    revert hlen
    decide

end KvStore
