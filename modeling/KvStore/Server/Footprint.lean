import KvStore.Server.Bounds

/-! The bytes that a round of the loop over packets is listed with are all that it touches: the
other bytes of the buffer stay and do not matter, and the texts that are built are listed byte for
byte. -/
namespace KvStore

/-- Two buffers of one size with the same bytes at the listed places. -/
structure AgreeOn (l : List Access) (buffer buffer' : List UInt8) : Prop where
  size : buffer'.length = buffer.length
  byte : ∀ i, .buffer i ∈ l → buffer'[i]? = buffer[i]?

theorem mem_accessRange {f : ℕ → Access} {i j n : ℕ} (hi : i ≤ j) (hj : j < i + n) :
    f j ∈ accessRange f i n := List.mem_map_of_mem (List.mem_range'_1.mpr ⟨hi, hj⟩)

namespace AgreeOn

variable {l l' : List Access} {buffer buffer' : List UInt8} {cmd : Option Cmd} {i n : ℕ}

theorem mono (h : AgreeOn l buffer buffer') (hl : l' ⊆ l) : AgreeOn l' buffer buffer' :=
  ⟨h.size, fun i hi => h.byte i (hl hi)⟩

theorem left (h : AgreeOn (l ++ l') buffer buffer') : AgreeOn l buffer buffer' :=
  h.mono (List.subset_append_left l l')

theorem right (h : AgreeOn (l ++ l') buffer buffer') : AgreeOn l' buffer buffer' :=
  h.mono (List.subset_append_right l l')

theorem set (h : AgreeOn l buffer buffer') (i : ℕ) (b : UInt8) :
    AgreeOn l (buffer.set i b) (buffer'.set i b) where
  size := by rw [List.length_set, List.length_set, h.size]
  byte := by
    intro j hj
    rw [List.getElem?_set, List.getElem?_set, h.size, h.byte j hj]

/-- A string is what is read of it. -/
theorem read (h : AgreeOn (readString buffer i) buffer buffer') :
    CString.read (buffer'.drop i) = CString.read (buffer.drop i) := by
  apply CString.read_congr
  intro j hj
  rw [List.getElem?_drop, List.getElem?_drop]
  exact h.byte (i + j) (mem_accessRange (Nat.le_add_right i j) (by omega))

theorem readString (h : AgreeOn (readString buffer i) buffer buffer') :
    KvStore.readString buffer' i = KvStore.readString buffer i := by
  rw [KvStore.readString, h.read, KvStore.readString]

theorem take (h : AgreeOn (accessRange .buffer 0 n) buffer buffer') :
    buffer'.take n = buffer.take n := by
  apply List.ext_getElem?
  intro j
  rw [List.getElem?_take, List.getElem?_take]
  split_ifs with hj
  · exact h.byte j (mem_accessRange (Nat.zero_le j) (by omega))
  · rfl

theorem header (h : AgreeOn parseAccesses buffer buffer') :
    parseTcpHeader buffer' = parseTcpHeader buffer ∧
      TcpHeader.read buffer' = TcpHeader.read buffer := by
  have htake := h.take
  constructor
  · rw [← parseTcpHeader_take buffer', htake, parseTcpHeader_take]
  · rw [← TcpHeader.read_take buffer', htake, TcpHeader.read_take]

theorem zadd (h : AgreeOn (KvStore.readString buffer i ++ zaddAccesses buffer i cmd) buffer buffer') :
    zaddAccesses buffer' i cmd = zaddAccesses buffer i cmd := by
  have hread := h.left.read
  have hzadd := h.right
  unfold zaddAccesses at hzadd ⊢
  split
  · rw [hread]
    split
    · rename_i j hj
      rw [hj] at hzadd
      have hscore : AgreeOn (KvStore.readString (buffer.set (i + j) 0) (i + j + 1))
          (buffer.set (i + j) 0) (buffer'.set (i + j) 0) :=
        (hzadd.mono (List.subset_cons_self _ _)).set _ _
      rw [hscore.readString]
    · rfl
  · rfl

/-- A payload is cut at the same places, and its strings are the same. -/
theorem payload (h : AgreeOn (payloadAccesses buffer n cmd) buffer buffer') :
    payloadAccesses buffer' n cmd = payloadAccesses buffer n cmd := by
  unfold payloadAccesses at h ⊢
  split_ifs with hn
  · rfl
  rw [if_neg hn] at h
  dsimp only at h ⊢
  have hend := h.left.set (tcpHeaderSize + n) 0
  have hdata := (hend.mono (List.subset_cons_self _ _)).read
  rw [(hend.mono (List.subset_cons_self _ _)).readString, hdata]
  split
  · rfl
  · rename_i i hi
    rw [hi] at h
    have hcut := (h.right.set (tcpHeaderSize + n) 0).set (tcpHeaderSize + i) 0
    have hkey := (hcut.left.left.mono (List.subset_cons_self _ _)).readString
    dsimp only at hcut
    rw [List.append_assoc] at hcut
    rw [hkey, hcut.right.left.readString, hcut.right.zadd]

theorem splitPayload {p : Payload} (h : AgreeOn l buffer buffer')
    (hl : payloadAccesses buffer n cmd ⊆ l) (hp : splitPayload buffer n = some p) :
    ∃ p', KvStore.splitPayload buffer' n = some p' ∧ p'.key = p.key ∧ p'.value = p.value ∧
      AgreeOn l p.buffer p'.buffer := by
  have hpayload := h.mono hl
  unfold payloadAccesses at hpayload
  unfold KvStore.splitPayload at hp ⊢
  rw [h.size]
  split_ifs at hp ⊢ with hn hlen
  · cases hp
    exact ⟨_, rfl, rfl, rfl, h⟩
  rw [if_neg hn] at hpayload
  dsimp only at hp hpayload ⊢
  have hend := hpayload.left.set (tcpHeaderSize + n) 0
  have hdata := (hend.mono (List.subset_cons_self _ _)).read
  rw [hdata]
  split at hp
  · cases hp
    exact ⟨_, rfl, rfl, rfl, h.set _ _⟩
  · rename_i i hi
    cases hp
    rw [hi] at hpayload
    have hcut := (hpayload.right.set (tcpHeaderSize + n) 0).set (tcpHeaderSize + i) 0
    have hkey := (hcut.left.left.mono (List.subset_cons_self _ _)).read
    have hvalue := hcut.left.right.read
    refine ⟨_, rfl, by rw [hkey], ?_, (h.set _ _).set _ _⟩
    rw [List.drop_drop, List.drop_drop, ← Nat.add_assoc, hvalue]

theorem afterCommand {p p' : Payload} (h : AgreeOn l p.buffer p'.buffer) (hkey : p'.key = p.key)
    (hvalue : p'.value = p.value) (cmd : Option Cmd) :
    AgreeOn l (p.afterCommand cmd) (p'.afterCommand cmd) := by
  unfold Payload.afterCommand
  rw [hkey, hvalue]
  split
  · split
    · exact h.set _ _
    · exact h
  · exact h

end AgreeOn

/-- Without a value nothing more is written. -/
theorem Payload.afterCommand_none {p : Payload} (hvalue : p.value = none) (cmd : Option Cmd) :
    p.afterCommand cmd = p.buffer := by
  unfold afterCommand
  split
  · rename_i hsome
    rw [hvalue] at hsome
    cases hsome
  · rfl

/-- The bytes that are not listed stay as they are while a payload is cut. -/
theorem splitPayload_stays {buffer : List UInt8} {n i : ℕ} {cmd : Option Cmd} {p : Payload}
    (hp : splitPayload buffer n = some p) (hi : .buffer i ∉ payloadAccesses buffer n cmd) :
    (p.afterCommand cmd)[i]? = buffer[i]? := by
  unfold payloadAccesses at hi
  unfold splitPayload at hp
  split_ifs at hp hi with hn hlen
  · cases hp
    rw [Payload.afterCommand_none rfl]
  have hend : tcpHeaderSize + n ≠ i := by
    rintro rfl
    exact hi (List.mem_append_left _ (List.mem_cons_self))
  dsimp only at hp hi
  split at hp
  · cases hp
    rw [Payload.afterCommand_none rfl, List.getElem?_set_ne hend]
  · rename_i j hj
    cases hp
    rw [hj] at hi
    dsimp only at hi
    simp only [List.mem_append, List.mem_cons, not_or] at hi
    obtain ⟨-, ⟨⟨hspace, -⟩, -⟩, hzadd⟩ := hi
    have hcut : tcpHeaderSize + j ≠ i := fun he => hspace (he ▸ rfl)
    have hstays : ((buffer.set (tcpHeaderSize + n) 0).set (tcpHeaderSize + j) 0)[i]? =
        buffer[i]? := by rw [List.getElem?_set_ne hcut, List.getElem?_set_ne hend]
    have hkey : (CString.read (((buffer.set (tcpHeaderSize + n) 0).set (tcpHeaderSize + j) 0).drop
        tcpHeaderSize)).length = j := by
      rw [List.drop_set, if_neg (by omega), Nat.add_sub_cancel_left]
      exact CString.length_read_set (List.findIdx?_eq_some_iff_getElem.mp hj).1
    unfold Payload.afterCommand
    split
    · rename_i key value hkey' hvalue
      cases hkey'
      cases hvalue
      split
      · rename_i m hm
        rw [hkey]
        rw [List.drop_drop, ← Nat.add_assoc] at hm
        rw [zaddAccesses, hm] at hzadd
        have hscore : tcpHeaderSize + j + 1 + m ≠ i := by
          rintro rfl
          exact hzadd List.mem_cons_self
        rw [List.getElem?_set_ne hscore, hstays]
      · exact hstays
    · exact hstays

section Handler

variable {S : Type*} [Comparisons S] {P : Scores S} {cfg : ServerConfig} {n : ℕ} {w : Host}
  {s : Store S} {l : List Access} {buffer buffer' : List UInt8} {len : ℕ} {x : Handled S}

theorem parseAccesses_subset : parseAccesses ⊆ handlerAccesses P n w s cfg buffer len :=
  List.subset_append_left _ _

theorem payloadAccesses_subset (hvalid : ¬ (parseTcpHeader buffer).1 < 0)
    (hcomplete : ¬ len < tcpHeaderSize + (TcpHeader.read buffer).dataLen) :
    payloadAccesses buffer (TcpHeader.read buffer).dataLen
      (Cmd.ofCode (TcpHeader.read buffer).cmdType) ⊆ handlerAccesses P n w s cfg buffer len := by
  intro a ha
  rw [handlerAccesses, if_neg (not_or.mpr ⟨hvalid, hcomplete⟩)]
  exact List.mem_append_right _ (List.mem_append_left _ (List.mem_append_left _ ha))

/-- What the handler does depends on the listed bytes alone. -/
theorem AgreeOn.kvsTcpProtocol (h : AgreeOn l buffer buffer')
    (hl : handlerAccesses P n w s cfg buffer len ⊆ l)
    (hx : kvsTcpProtocol P cfg n w s buffer len = some x) : ∃ x',
    KvStore.kvsTcpProtocol P cfg n w s buffer' len = some x' ∧ x'.ret = x.ret ∧
      x'.response = x.response ∧ x'.store = x.store ∧ AgreeOn l x.buffer x'.buffer := by
  obtain ⟨hparse, hread⟩ := (h.mono (List.Subset.trans parseAccesses_subset hl)).header
  unfold KvStore.kvsTcpProtocol at hx ⊢
  rw [h.size, hparse]
  dsimp only at hx ⊢
  rw [parseTcpHeader_snd] at hx ⊢
  split_ifs at hx ⊢ with hshort hall hneg hless
  · cases hx
    exact ⟨_, rfl, rfl, rfl, rfl, h⟩
  · cases hx
    exact ⟨_, rfl, rfl, rfl, rfl, h⟩
  · cases hx
    exact ⟨_, rfl, rfl, rfl, rfl, h⟩
  · obtain ⟨p, hp, hx⟩ := Option.bind_eq_some_iff.mp hx
    obtain ⟨c, hc, hx⟩ := Option.bind_eq_some_iff.mp hx
    cases hx
    have hpayload := List.Subset.trans (payloadAccesses_subset hneg hless) hl
    obtain ⟨p', hp', hkey, hvalue, hbuffer⟩ := h.splitPayload hpayload hp
    rw [hp', Option.bind_some, hkey, hvalue, hc, Option.bind_some]
    exact ⟨_, rfl, rfl, rfl, rfl, hbuffer.afterCommand hkey hvalue _⟩

/-- The handler changes listed bytes alone. -/
theorem kvsTcpProtocol_stays {i : ℕ} (hx : kvsTcpProtocol P cfg n w s buffer len = some x)
    (hi : .buffer i ∉ handlerAccesses P n w s cfg buffer len) : x.buffer[i]? = buffer[i]? := by
  unfold kvsTcpProtocol at hx
  dsimp only at hx
  rw [parseTcpHeader_snd] at hx
  split_ifs at hx with hshort hall hneg hless
  · cases hx
    rfl
  · cases hx
    rfl
  · cases hx
    rfl
  · obtain ⟨p, hp, hx⟩ := Option.bind_eq_some_iff.mp hx
    obtain ⟨c, hc, hx⟩ := Option.bind_eq_some_iff.mp hx
    cases hx
    exact splitPayload_stays hp fun ha => hi (payloadAccesses_subset hneg hless ha)

theorem copyText_listed {text : List UInt8} {i : ℕ} (hi : i ≤ text.length) :
    .result i ∈ copyText text := mem_accessRange (Nat.zero_le i) (by omega)

theorem getText_listed {v : CharPtr} {text : List UInt8} (h : getText v = some text) {i : ℕ}
    (hi : i ≤ text.length) : .result i ∈ getAccesses v := by
  cases v with
  | null =>
    cases h
    exact copyText_listed hi
  | str v =>
    rw [getText] at h
    split_ifs at h
    cases h
    exact copyText_listed hi
  | uninit => cases h
  | freed => cases h

omit [Comparisons S] in
/-- The lines behind a result, down to the NUL of the last one. -/
theorem zrangeText_listed (es : List (ZRangeEntry S)) {result : List UInt8} {i : ℕ}
    (hsize : result.length < resultSize) (hlow : result.length < i)
    (hi : i ≤ (zrangeText P es result).length) :
    .result i ∈ zrangeAccesses P es result.length := by
  induction es generalizing result with
  | nil =>
    rw [zrangeText] at hi
    omega
  | cons e es ih =>
    rw [zrangeAccesses, List.mem_append]
    rw [zrangeText] at hi
    split_ifs at hi ⊢ with hfull
    · rw [List.length_append, List.length_take] at hi
      exact .inl (mem_accessRange hlow.le (by omega))
    · by_cases hline : i ≤ result.length + (zrangeLine P e).length
      · exact .inl (mem_accessRange hlow.le (by omega))
      · right
        rw [← List.length_append] at hline ⊢
        exact ih (by rw [List.length_append]; omega) (not_le.mp hline) hi

theorem runZrange_listed {key value : Option CString} {c : List UInt8 × Store S}
    (hc : runCommand P n w s cfg (some .zrange) key value = some c) {i : ℕ}
    (hi : i ≤ c.1.length) :
    .result i ∈ commandAccesses P n w s cfg (some .zrange) key value := by
  change runZrange P n s key value = some c at hc
  cases key with
  | none =>
    cases hc
    exact copyText_listed hi
  | some key =>
    cases value with
    | none =>
      cases hc
      exact copyText_listed hi
    | some value =>
      cases hscan : P.sscanf value with
      | none =>
        simp only [runZrange, hscan] at hc
        cases hc
        simp only [commandAccesses, hscan]
        exact copyText_listed hi
      | some range =>
        simp only [runZrange, hscan] at hc
        obtain ⟨es, hes, hc⟩ := Option.bind_eq_some_iff.mp hc
        cases hc
        simp only [commandAccesses, hscan, hes, Option.map_some, Option.getD_some]
        obtain rfl | hpos := Nat.eq_zero_or_pos i
        · exact List.mem_cons_self
        · exact List.mem_cons_of_mem _ (zrangeText_listed es (by decide) hpos hi)

/-- Every byte of a result is listed, with the NUL behind it. -/
theorem runCommand_listed {cmd : Option Cmd} {key value : Option CString}
    {c : List UInt8 × Store S} (hc : runCommand P n w s cfg cmd key value = some c) {i : ℕ}
    (hi : i ≤ c.1.length) : .result i ∈ commandAccesses P n w s cfg cmd key value := by
  by_cases hzrange : cmd = some .zrange
  · subst hzrange
    exact runZrange_listed hc hi
  unfold commandAccesses
  split
  · obtain ⟨r, hr, hc⟩ := Option.bind_eq_some_iff.mp hc
    obtain ⟨text, htext, hc⟩ := Option.bind_eq_some_iff.mp hc
    cases hc
    rw [hr]
    exact getText_listed htext hi
  · obtain ⟨v, hv, hc⟩ := Option.bind_eq_some_iff.mp hc
    obtain ⟨text, htext, hc⟩ := Option.bind_eq_some_iff.mp hc
    cases hc
    rw [hv]
    exact getText_listed htext hi
  · obtain ⟨v, hv, hc⟩ := Option.bind_eq_some_iff.mp hc
    obtain ⟨text, htext, hc⟩ := Option.bind_eq_some_iff.mp hc
    cases hc
    rw [hv]
    exact getText_listed htext hi
  · exact absurd rfl hzrange
  · rw [hc]
    exact copyText_listed hi

/-- A response is the header and the text of a command that has run. -/
theorem kvsTcpProtocol_answered (hx : kvsTcpProtocol P cfg n w s buffer len = some x)
    (hne : x.response ≠ []) :
    ¬ (parseTcpHeader buffer).1 < 0 ∧ ¬ len < tcpHeaderSize + (TcpHeader.read buffer).dataLen ∧
    ∃ p c, splitPayload buffer (TcpHeader.read buffer).dataLen = some p ∧
      runCommand P n w s cfg (Cmd.ofCode (TcpHeader.read buffer).cmdType) p.key p.value = some c ∧
      x.response.length = tcpHeaderSize + c.1.length := by
  unfold kvsTcpProtocol at hx
  dsimp only at hx
  rw [parseTcpHeader_snd] at hx
  split_ifs at hx with hshort hall hneg hless
  · cases hx
    exact absurd rfl hne
  · cases hx
    exact absurd rfl hne
  · cases hx
    exact absurd rfl hne
  · obtain ⟨p, hp, hx⟩ := Option.bind_eq_some_iff.mp hx
    obtain ⟨c, hc, hx⟩ := Option.bind_eq_some_iff.mp hx
    cases hx
    refine ⟨hneg, hless, p, c, hp, hc, ?_⟩
    rw [buildTcpResponse, List.length_append, TcpHeader.length_bytes]

/-- Every byte of a response is listed, and every byte of its text where it was built. -/
theorem kvsTcpProtocol_listed (hx : kvsTcpProtocol P cfg n w s buffer len = some x)
    (hne : x.response ≠ []) :
    (∀ i < x.response.length, .response i ∈ handlerAccesses P n w s cfg buffer len) ∧
    ∀ i, tcpHeaderSize + i ≤ x.response.length →
      .result i ∈ handlerAccesses P n w s cfg buffer len := by
  obtain ⟨hneg, hless, p, c, hp, hc, hlen⟩ := kvsTcpProtocol_answered hx hne
  rw [handlerAccesses, if_neg (not_or.mpr ⟨hneg, hless⟩), hp, Option.map_some, Option.getD_some,
    hc, Option.map_some, Option.getD_some, hlen]
  constructor
  · intro i hi
    refine List.mem_append_right _ (List.mem_append_right _ (List.mem_append_right _ ?_))
    rw [buildAccesses]
    by_cases hheader : i < tcpHeaderSize
    · exact List.mem_append_left _ (List.mem_append_left _ (List.mem_append_right _
        (mem_accessRange (Nat.zero_le i) (by omega))))
    · exact List.mem_append_right _ (mem_accessRange (not_lt.mp hheader) hi)
  · intro i hi
    refine List.mem_append_right _ (List.mem_append_right _ (List.mem_append_left _ ?_))
    exact runCommand_listed hc (by omega)

end Handler

section Round

variable {S : Type*} [Comparisons S] (P : Scores S) (cfg : ServerConfig)

/-- The list has every byte of the buffer that a round changes or looks at, and every byte of what
it writes into the other three buffers. -/
structure Reader.Covered (r : Reader S) (s : Store S) (n : ℕ) (w : Host) (l : List Access) :
    Prop where
  stays : ∀ r', readerStep P cfg r (.round s n w) = some r' →
    ∀ i, .buffer i ∉ l → r'.buffer[i]? = r.buffer[i]?
  depends : ∀ buffer r', AgreeOn l r.buffer buffer →
    readerStep P cfg r (.round s n w) = some r' → ∃ r'',
      readerStep P cfg { r with buffer := buffer } (.round s n w) = some r'' ∧
      AgreeOn l r'.buffer r''.buffer ∧ r''.bufferLen = r'.bufferLen ∧ r''.closed = r'.closed ∧
      r''.store = r'.store ∧ r''.sent = r'.sent
  answers : ∀ r' message, readerStep P cfg r (.round s n w) = some r' →
    r'.sent = r.sent ++ [message] →
    (∀ i < message.length, .sendBuf i ∈ l) ∧
    (∀ i, tcpHeaderSize + i < message.length → .response i ∈ l) ∧
    ∀ i, 2 * tcpHeaderSize + i ≤ message.length → .result i ∈ l

variable {P cfg} {r r' : Reader S} {s : Store S} {n : ℕ} {w : Host} {l : List Access}
  {buffer : List UInt8}

/-- A round of an open reader with a whole packet, as one call of the handler. -/
theorem readerStep_call (hopen : r.closed = false) (hwaits : ¬ r.Waits) :
    readerStep P cfg r (.round s n w) =
      if (parseTcpHeader r.buffer).1 < 0 then some { r with closed := true, store := s }
      else (kvsTcpProtocol P cfg n w s r.buffer
        (tcpHeaderSize + (TcpHeader.read r.buffer).dataLen)).map r.behind := by
  have hwaits' : ¬ { r with store := s }.Waits := hwaits
  rw [readerStep, if_neg (by simp [hopen, hwaits])]
  split_ifs with hneg
  · rw [handlePackets_refused hwaits' hneg]
  · rw [handlePackets_handled hwaits' (not_lt.mp hneg)]
    cases kvsTcpProtocol P cfg n w s r.buffer
      (tcpHeaderSize + (TcpHeader.read r.buffer).dataLen) with
    | none => rfl
    | some x => rfl

omit [Comparisons S] in
theorem AgreeOn.waits (h : AgreeOn parseAccesses r.buffer buffer) :
    Reader.Waits { r with buffer := buffer } ↔ r.Waits := by
  obtain ⟨hparse, hread⟩ := h.header
  unfold Reader.Waits
  dsimp only
  rw [hparse, hread]

omit [Comparisons S] in
theorem getElem?_memmove {i k : ℕ} (h : i + k ≤ buffer.length) (j : ℕ) :
    (memmove buffer i k)[j]? = if j < k then buffer[i + j]? else buffer[j]? := by
  have hlen : ((buffer.drop i).take k).length = k := by
    rw [List.length_take, List.length_drop]
    omega
  rw [memmove, List.getElem?_append, hlen]
  split_ifs with hj
  · rw [List.getElem?_take, if_pos hj, List.getElem?_drop]
  · rw [List.getElem?_drop, Nat.add_sub_cancel' (not_lt.mp hj)]

/-- The lists of one round: the handler's, and the bytes that are moved to the front. -/
theorem handlerAccesses_subset {bufferLen : ℕ} (hneg : ¬ (parseTcpHeader buffer).1 < 0)
    (hless : ¬ bufferLen < tcpHeaderSize + (TcpHeader.read buffer).dataLen) :
    handlerAccesses P n w s cfg buffer (tcpHeaderSize + (TcpHeader.read buffer).dataLen) ⊆
      roundAccesses P n w s cfg buffer bufferLen := by
  intro a ha
  rw [roundAccesses, if_neg (not_or.mpr ⟨hneg, hless⟩)]
  exact List.mem_append_right _ (List.mem_append_left _ (List.mem_append_right _ ha))

theorem moved_mem {bufferLen : ℕ} {x : Handled S} (hneg : ¬ (parseTcpHeader buffer).1 < 0)
    (hless : ¬ bufferLen < tcpHeaderSize + (TcpHeader.read buffer).dataLen)
    (hx : kvsTcpProtocol P cfg n w s buffer (tcpHeaderSize + (TcpHeader.read buffer).dataLen) =
      some x) {j : ℕ}
    (hj : j < bufferLen - (tcpHeaderSize + (TcpHeader.read buffer).dataLen)) :
    .buffer j ∈ roundAccesses P n w s cfg buffer bufferLen ∧
      .buffer (tcpHeaderSize + (TcpHeader.read buffer).dataLen + j) ∈
        roundAccesses P n w s cfg buffer bufferLen := by
  rw [roundAccesses, if_neg (not_or.mpr ⟨hneg, hless⟩), hx, Option.map_some, Option.getD_some]
  constructor
  · exact List.mem_append_right _ (List.mem_append_right _ (List.mem_append_right _
      (mem_accessRange (Nat.zero_le j) (by omega))))
  · exact List.mem_append_right _ (List.mem_append_right _ (List.mem_append_left _
      (List.mem_append_right _ (mem_accessRange (Nat.le_add_right _ j) (by omega)))))

theorem AgreeOn.memmove {buffer' : List UInt8} {i k : ℕ} (h : AgreeOn l buffer buffer')
    (hk : i + k ≤ buffer.length) (hl : ∀ j < k, .buffer (i + j) ∈ l) :
    AgreeOn l (memmove buffer i k) (memmove buffer' i k) := by
  have hk' : i + k ≤ buffer'.length := h.size ▸ hk
  constructor
  · rw [length_memmove hk, length_memmove hk', h.size]
  · intro j hj
    rw [getElem?_memmove hk, getElem?_memmove hk']
    split_ifs with hmoved
    · exact h.byte _ (hl j hmoved)
    · exact h.byte j hj

namespace Reader.Sized

theorem stays (hsized : r.Sized) (hr : readerStep P cfg r (.round s n w) = some r') {i : ℕ}
    (hi : .buffer i ∉ roundAccesses P n w s cfg r.buffer r.bufferLen) :
    r'.buffer[i]? = r.buffer[i]? := by
  have hsize := hsized.size
  have hlen := hsized.len
  obtain ⟨-, -, rfl | ⟨x, hacc, htotal, hx, rfl⟩⟩ := readerStep_round hsized hr
  · rfl
  · have hneg : ¬ (parseTcpHeader r.buffer).1 < 0 := by simp [hacc.valid]
    have hxlen := kvsTcpProtocol_length hacc hx
    rw [behind, getElem?_memmove (by omega), if_neg]
    · exact kvsTcpProtocol_stays hx fun ha => hi (handlerAccesses_subset hneg (not_lt.mpr htotal) ha)
    · exact fun hmoved => hi (moved_mem hneg (not_lt.mpr htotal) hx hmoved).1

theorem depends (hsized : r.Sized)
    (hagree : AgreeOn (roundAccesses P n w s cfg r.buffer r.bufferLen) r.buffer buffer)
    (hr : readerStep P cfg r (.round s n w) = some r') : ∃ r'',
    readerStep P cfg { r with buffer := buffer } (.round s n w) = some r'' ∧
    AgreeOn (roundAccesses P n w s cfg r.buffer r.bufferLen) r'.buffer r''.buffer ∧
    r''.bufferLen = r'.bufferLen ∧ r''.closed = r'.closed ∧ r''.store = r'.store ∧
    r''.sent = r'.sent := by
  have hsize := hsized.size
  have hlen := hsized.len
  have hparse := hagree.mono (List.subset_append_left _ _)
  obtain ⟨hparsed, hheader⟩ := hparse.header
  obtain ⟨hopen, hwaits, hcase⟩ := readerStep_round hsized hr
  rw [readerStep_call hopen hwaits] at hr
  rw [readerStep_call (r := { r with buffer := buffer }) hopen (hparse.waits.not.mpr hwaits)]
  dsimp only
  rw [hparsed, hheader]
  obtain rfl | ⟨x, hacc, htotal, hx, rfl⟩ := hcase
  · split_ifs at hr ⊢ with hneg
    · exact ⟨_, rfl, hagree, rfl, rfl, rfl, rfl⟩
    · obtain ⟨x, -, hclosed⟩ := Option.map_eq_some_iff.mp hr
      cases congrArg Reader.closed hclosed
  · have hneg : ¬ (parseTcpHeader r.buffer).1 < 0 := by simp [hacc.valid]
    obtain ⟨x', hx', hret, hresponse, hstore, hbuffer⟩ := hagree.kvsTcpProtocol
      (handlerAccesses_subset hneg (not_lt.mpr htotal)) hx
    have hxlen := kvsTcpProtocol_length hacc hx
    have hmoved := hbuffer.memmove (by omega)
      fun j hj => (moved_mem hneg (not_lt.mpr htotal) hx hj).2
    rw [if_neg hneg, hx', Option.map_some]
    refine ⟨_, rfl, ?_, ?_, rfl, hstore, ?_⟩
    · simp only [behind, hheader]
      exact hmoved
    · simp only [behind, hheader]
    · simp only [behind, hheader, hret, hresponse]

theorem answers (hsized : r.Sized) (hr : readerStep P cfg r (.round s n w) = some r')
    {message : List UInt8} (hsent : r'.sent = r.sent ++ [message]) :
    (∀ i < message.length,
      .sendBuf i ∈ roundAccesses P n w s cfg r.buffer r.bufferLen) ∧
    (∀ i, tcpHeaderSize + i < message.length →
      .response i ∈ roundAccesses P n w s cfg r.buffer r.bufferLen) ∧
    ∀ i, 2 * tcpHeaderSize + i ≤ message.length →
      .result i ∈ roundAccesses P n w s cfg r.buffer r.bufferLen := by
  obtain ⟨-, -, rfl | ⟨x, hacc, htotal, hx, rfl⟩⟩ := readerStep_round hsized hr
  · exact absurd hsent (by simp)
  · have hneg : ¬ (parseTcpHeader r.buffer).1 < 0 := by simp [hacc.valid]
    obtain ⟨resp, hret, hlen, hlow, hhigh⟩ := kvsTcpProtocol_ret hacc hx
    have hpos : 0 < x.ret := by omega
    have hne : x.response ≠ [] := List.ne_nil_of_length_pos (by omega)
    obtain ⟨hresponse, hresult⟩ := kvsTcpProtocol_listed hx hne
    have hsub : handlerAccesses P n w s cfg r.buffer _ ⊆ _ :=
      handlerAccesses_subset hneg (not_lt.mpr htotal)
    rw [behind] at hsent
    dsimp only at hsent
    rw [if_pos hpos, List.append_cancel_left_eq, List.singleton_inj] at hsent
    have hmessage : message.length = tcpHeaderSize + x.response.length := by
      rw [← hsent, sendBuf, List.length_append, TcpHeader.length_bytes, List.length_take, hret,
        Int.toNat_natCast, hlen, min_self]
    refine ⟨?_, ?_, ?_⟩
    · intro i hi
      have hfit : i < 0 + sendBufSize := by
        rw [sendBufSize]
        rw [tcpHeaderSize] at hmessage
        omega
      rw [roundAccesses, if_neg (not_or.mpr ⟨hneg, not_lt.mpr htotal⟩), hx, Option.map_some,
        Option.getD_some, if_pos hpos]
      refine List.mem_append_right _ (List.mem_append_right _ (List.mem_append_left _
        (List.mem_append_left _ (List.mem_append_left _ (List.mem_append_left _ ?_)))))
      exact mem_accessRange (Nat.zero_le i) hfit
    · exact fun i hi => hsub (hresponse i (by omega))
    · exact fun i hi => hsub (hresult i (by omega))

theorem covered (hsized : r.Sized) (s : Store S) (n : ℕ) (w : Host) :
    r.Covered P cfg s n w (roundAccesses P n w s cfg r.buffer r.bufferLen) where
  stays := fun _ hr _ hi => hsized.stays hr hi
  depends := fun _ _ hagree hr => hsized.depends hagree hr
  answers := fun _ _ hr hsent => hsized.answers hr hsent

end Reader.Sized

end Round

section Bounded

variable {S : Type*} [Comparisons S] (P : Scores S) (cfg : ServerConfig)

/-- What holds of a reader whatever the client has sent: a `recv` has room, one round touches
bytes of the buffers only, which are those that it is listed with, the loop over packets ends, and a
packet that is handled is answered with one `send`. -/
structure Reader.Bounded (r : Reader S) : Prop where
  asks : r.closed = false → r.Waits → r.bufferLen ≤ 1047
  receives : AllInBounds (accessRange .buffer r.bufferLen (readerBufferSize - r.bufferLen))
  touches : ∀ (s : Store S) n w, s.ShortValues →
    AllInBounds (roundAccesses P n w s cfg r.buffer r.bufferLen)
  covers : ∀ s n w, r.Covered P cfg s n w (roundAccesses P n w s cfg r.buffer r.bufferLen)
  ends : ∀ (rounds : List (Store S × ℕ × Host)) r',
    rounds.foldlM (fun r q => readerStep P cfg r (.round q.1 q.2.1 q.2.2)) r = some r' →
    tcpHeaderSize * rounds.length ≤ r.bufferLen
  sends : ∀ s n w r', readerStep P cfg r (.round s n w) = some r' →
    (r'.closed = true ∧ r'.calls = r.calls ∧ r'.sent = r.sent) ∨
    ∃ packet message : List UInt8, ∃ resp, r'.calls = r.calls ++ [packet] ∧
      r'.sent = r.sent ++ [message] ∧ message.length = tcpHeaderSize + resp ∧
      24 ≤ resp ∧ resp ≤ 1047

variable {P cfg} {r r' : Reader S}

/-- One call of the handler is one `send`. -/
theorem Reader.Sized.sends (hsized : r.Sized) {s : Store S} {n : ℕ} {w : Host}
    (h : readerStep P cfg r (.round s n w) = some r') :
    (r'.closed = true ∧ r'.calls = r.calls ∧ r'.sent = r.sent) ∨
    ∃ packet message : List UInt8, ∃ resp, r'.calls = r.calls ++ [packet] ∧
      r'.sent = r.sent ++ [message] ∧ message.length = tcpHeaderSize + resp ∧
      24 ≤ resp ∧ resp ≤ 1047 := by
  obtain ⟨-, -, rfl | ⟨x, hacc, -, hx, rfl⟩⟩ := readerStep_round hsized h
  · exact .inl ⟨rfl, rfl, rfl⟩
  · obtain ⟨resp, hret, hlen, hlow, hhigh⟩ := kvsTcpProtocol_ret hacc hx
    have hpos : 0 < x.ret := by omega
    have hall : x.response.take x.ret.toNat = x.response := by
      rw [hret, Int.toNat_natCast, ← hlen, List.take_length]
    refine .inr ⟨_, sendBuf (TcpHeader.read r.buffer) x.response, resp, rfl, ?_, ?_, hlow, hhigh⟩
    · rw [Reader.behind]
      dsimp only
      rw [if_pos hpos, hall]
    · rw [sendBuf, List.length_append, TcpHeader.length_bytes, hlen]

theorem Reader.Sized.bounded (h : r.Sized) : r.Bounded P cfg where
  asks := fun _ hwaits => hwaits.le
  receives := by
    have hlen := h.len
    exact bufferRange (by omega)
  touches := fun s n w hs => roundAccesses_inBounds hs h.size h.len
  covers := h.covered
  ends := fun rounds r' hr => rounds_length h rounds hr
  sends := fun s n w r' hr => h.sends hr

end Bounded

end KvStore
