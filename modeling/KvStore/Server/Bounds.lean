import KvStore.Server.Frames
import KvStore.Lib.Guarded

/-! The four buffers of `server_reader` and of the handler: which bytes of them are touched, and
that these are there. The engines may change between two calls of the handler, as other connections
are served, so every call has engines of its own here. -/
namespace KvStore

/-- `sizeof(response)`. -/
def responseSize : ℕ := 2048

/-- `sizeof(send_buf)`. -/
def sendBufSize : ℕ := 4096

/-- One byte of a buffer that is read or written. -/
inductive Access
  | buffer (i : ℕ)
  | result (i : ℕ)
  | response (i : ℕ)
  | sendBuf (i : ℕ)

def Access.InBounds : Access → Prop
  | .buffer i => i < readerBufferSize
  | .result i => i < resultSize
  | .response i => i < responseSize
  | .sendBuf i => i < sendBufSize

/-- The `n` bytes from byte `i` on. -/
def accessRange (f : ℕ → Access) (i n : ℕ) : List Access := (List.range' i n).map f

/-- A string in the buffer is read with its NUL. -/
def readString (buffer : List UInt8) (i : ℕ) : List Access :=
  accessRange .buffer i ((CString.read (buffer.drop i)).length + 1)

/-- `parse_tcp_header`. -/
def parseAccesses : List Access := accessRange .buffer 0 tcpHeaderSize

/-- `ZADD` looks for the space in its value at byte `i`, and reads the score behind it. -/
def zaddAccesses (buffer : List UInt8) (i : ℕ) : Option Cmd → List Access
  | some .zadd =>
    match (CString.read (buffer.drop i)).strchr space with
    | some j => .buffer (i + j) :: readString (buffer.set (i + j) 0) (i + j + 1)
    | none => []
  | _ => []

/-- The payload is ended, cut at its space, and read as key and value. -/
def payloadAccesses (buffer : List UInt8) (dataLen : ℕ) (cmd : Option Cmd) : List Access :=
  if dataLen = 0 then []
  else
    let buffer := buffer.set (tcpHeaderSize + dataLen) 0
    .buffer (tcpHeaderSize + dataLen) :: readString buffer tcpHeaderSize ++
      match (CString.read (buffer.drop tcpHeaderSize)).strchr space with
      | none => []
      | some i =>
        let buffer := buffer.set (tcpHeaderSize + i) 0
        .buffer (tcpHeaderSize + i) :: readString buffer tcpHeaderSize ++
          readString buffer (tcpHeaderSize + i + 1) ++
          zaddAccesses buffer (tcpHeaderSize + i + 1) cmd

/-- `strcpy(result, text)`. -/
def copyText (text : List UInt8) : List Access := accessRange .result 0 (text.length + 1)

/-- The copy of the result of a `get`. -/
def getAccesses : CharPtr → List Access
  | .null => copyText noExistText
  | .str v => copyText v.bytes
  | .uninit => []
  | .freed => []

section Accesses

variable {S : Type*} [Comparisons S] (P : Scores S) (n : ℕ) (w : Host) (s : Store S)

/-- The calls of `snprintf`, with `len` bytes written so far. -/
def zrangeAccesses : List (ZRangeEntry S) → ℕ → List Access
  | [], _ => []
  | e :: es, len =>
    accessRange .result len (min ((zrangeLine P e).length + 1) (resultSize - len)) ++
      if resultSize - len ≤ (zrangeLine P e).length then []
      else zrangeAccesses es (len + (zrangeLine P e).length)

/-- What the `switch` writes into the result: the value that is found, the lines of a range, or
the text. -/
def commandAccesses (cfg : ServerConfig) (cmd : Option Cmd) (key value : Option CString) :
    List Access :=
  match cmd with
  | some .get => ((kvsArrayGet s.array key).map fun r => getAccesses r.1).getD []
  | some .rget => ((kvsRbtreeGet n s.rbtree key).map getAccesses).getD []
  | some .hget => ((kvsHashGet s.hash key).map getAccesses).getD []
  | some .zrange =>
    match key, value with
    | some _, some value =>
      match P.sscanf value with
      | none => copyText errorText
      | some (min, max) =>
        ((kvsSkiptableZrangeEntries n s.skiptable min max 100).map fun entries =>
          .result 0 :: zrangeAccesses P entries 0).getD []
    | _, _ => copyText errorText
  | cmd => ((runCommand P n w s cfg cmd key value).map fun c => copyText c.1).getD []

/-- `strlen(result)`, and `build_tcp_response` with a text of `len` bytes. -/
def buildAccesses (len : ℕ) : List Access :=
  accessRange .result 0 (len + 1) ++ accessRange .response 0 tcpHeaderSize ++
    accessRange .result 0 len ++ accessRange .response tcpHeaderSize len

/-- `kvs_tcp_protocol` on a packet of `len` bytes. -/
def handlerAccesses (cfg : ServerConfig) (buffer : List UInt8) (len : ℕ) : List Access :=
  let header := TcpHeader.read buffer
  let cmd := Cmd.ofCode header.cmdType
  parseAccesses ++
    if (parseTcpHeader buffer).1 < 0 ∨ len < tcpHeaderSize + header.dataLen then []
    else
      payloadAccesses buffer header.dataLen cmd ++ accessRange .result 0 resultSize ++
        ((splitPayload buffer header.dataLen).map fun p =>
          commandAccesses P n w s cfg cmd p.key p.value ++
            ((runCommand P n w s cfg cmd p.key p.value).map fun c =>
              buildAccesses c.1.length).getD []).getD []

/-- One round of the loop over packets of `server_reader`, with `bufferLen` bytes received. -/
def roundAccesses (cfg : ServerConfig) (buffer : List UInt8) (bufferLen : ℕ) : List Access :=
  let header := TcpHeader.read buffer
  let totalLen := tcpHeaderSize + header.dataLen
  parseAccesses ++
    if (parseTcpHeader buffer).1 < 0 ∨ bufferLen < totalLen then []
    else
      accessRange .response 0 responseSize ++ handlerAccesses P n w s cfg buffer totalLen ++
        ((kvsTcpProtocol P cfg n w s buffer totalLen).map fun h =>
          (if 0 < h.ret then
            accessRange .sendBuf 0 sendBufSize ++ accessRange .response 0 h.ret.toNat ++
              accessRange .sendBuf tcpHeaderSize h.ret.toNat
          else []) ++
          accessRange .buffer totalLen (bufferLen - totalLen) ++
            accessRange .buffer 0 (bufferLen - totalLen)).getD []

end Accesses

/-- What a `get` finds: the command is one, and its engine gives this. -/
def Store.Finds {S : Type*} (s : Store S) (n : ℕ) (key : Option CString) (v : CharPtr) :
    Option Cmd → Prop
  | some .get => ∃ a, kvsArrayGet s.array key = some (v, a)
  | some .rget => kvsRbtreeGet n s.rbtree key = some v
  | some .hget => kvsHashGet s.hash key = some v
  | _ => False

/-- The entries that a `ZRANGE` selects. -/
def Store.Selects {S : Type*} [Comparisons S] (P : Scores S) (n : ℕ) (s : Store S)
    (key value : Option CString) (cmd : Option Cmd) (entries : List (ZRangeEntry S)) : Prop :=
  cmd = some .zrange ∧ key ≠ none ∧ ∃ v min max, value = some v ∧ P.sscanf v = some (min, max) ∧
    kvsSkiptableZrangeEntries n s.skiptable min max 100 = some entries

/-- The texts of the handler are no longer than the one for an unknown command. -/
theorem retText_length {ret : ℤ} {positive : List UInt8}
    (h : positive.length ≤ unknownText.length) :
    (retText ret positive).length ≤ unknownText.length := by
  unfold retText
  split_ifs
  · decide
  · decide
  · exact h

theorem errorText_length : errorText.length ≤ unknownText.length := by decide

theorem getText_cases {v : CharPtr} {text : List UInt8} (h : getText v = some text) :
    text.length ≤ unknownText.length ∨
      ∃ v', v = .str v' ∧ v'.length < resultSize ∧ text = v'.bytes := by
  cases v with
  | null =>
    cases h
    exact .inl (by decide)
  | str v =>
    rw [getText] at h
    split_ifs at h with hlt
    cases h
    exact .inr ⟨v, rfl, hlt, rfl⟩
  | uninit => cases h
  | freed => cases h

theorem zrangeText_length {S : Type*} {P : Scores S} {es : List (ZRangeEntry S)}
    {result : List UInt8} (h : result.length < resultSize) :
    (zrangeText P es result).length < resultSize := by
  induction es generalizing result with
  | nil => exact h
  | cons e es ih =>
    rw [zrangeText]
    split_ifs with hfull
    · rw [List.length_append, List.length_take]
      omega
    · apply ih
      rw [List.length_append]
      omega

section Results

variable {S : Type*} {P : Scores S} {cfg : ServerConfig} {n : ℕ} {w : Host} {s : Store S}
  {key value : Option CString} {cmd : Option Cmd} {c : List UInt8 × Store S}

theorem runSave_length (h : runSave w s cfg = some c) : c.1.length ≤ unknownText.length := by
  obtain ⟨r, -, h⟩ := Option.bind_eq_some_iff.mp h
  cases h
  dsimp only
  split_ifs <;> decide

theorem runZrem_length (h : runZrem n s key = some c) : c.1.length ≤ unknownText.length := by
  unfold runZrem at h
  split at h
  · cases h
    exact errorText_length
  · obtain ⟨r, -, h⟩ := Option.bind_eq_some_iff.mp h
    cases h
    dsimp only
    split_ifs <;> decide

variable [Comparisons S]

theorem runZadd_length (h : runZadd P n w s key value = some c) :
    c.1.length ≤ unknownText.length := by
  unfold runZadd at h
  split at h
  · split at h
    · cases h
      exact errorText_length
    · obtain ⟨r, -, h⟩ := Option.bind_eq_some_iff.mp h
      cases h
      exact retText_length (by decide)
  · cases h
    exact errorText_length

theorem runZrange_cases (h : runZrange P n s key value = some c) :
    c.1.length ≤ unknownText.length ∨
      ∃ es, s.Selects P n key value (some .zrange) es ∧ c.1 = zrangeText P es [] := by
  unfold runZrange at h
  split at h
  · split at h
    · cases h
      exact .inl errorText_length
    · obtain ⟨es, hes, h⟩ := Option.bind_eq_some_iff.mp h
      cases h
      exact .inr ⟨es, ⟨rfl, Option.some_ne_none _, _, _, _, rfl, by assumption, hes⟩, rfl⟩
  · cases h
    exact .inl errorText_length

/-- A result is one of the texts, the value found, or the lines of the entries selected. -/
theorem runCommand_cases (h : runCommand P n w s cfg cmd key value = some c) :
    c.1.length ≤ unknownText.length ∨
    (∃ v, s.Finds n key (.str v) cmd ∧ v.length < resultSize ∧ c.1 = v.bytes) ∨
    ∃ es, s.Selects P n key value cmd es ∧ c.1 = zrangeText P es [] := by
  unfold runCommand at h
  split at h
  case h_1 | h_3 | h_4 | h_6 | h_8 =>
    obtain ⟨r, -, h⟩ := Option.bind_eq_some_iff.mp h
    cases h
    exact .inl (retText_length (by decide))
  case h_2 =>
    obtain ⟨r, hr, h⟩ := Option.bind_eq_some_iff.mp h
    obtain ⟨text, htext, h⟩ := Option.bind_eq_some_iff.mp h
    cases h
    obtain hshort | ⟨v, hv, hlt, rfl⟩ := getText_cases htext
    · exact .inl hshort
    · exact .inr (.inl ⟨v, ⟨r.2, by rw [hr, ← hv]⟩, hlt, rfl⟩)
  case h_7 | h_9 =>
    obtain ⟨r, hr, h⟩ := Option.bind_eq_some_iff.mp h
    obtain ⟨text, htext, h⟩ := Option.bind_eq_some_iff.mp h
    cases h
    obtain hshort | ⟨v, rfl, hlt, rfl⟩ := getText_cases htext
    · exact .inl hshort
    · exact .inr (.inl ⟨v, hr, hlt, rfl⟩)
  case h_5 =>
    obtain ⟨r, -, h⟩ := Option.bind_eq_some_iff.mp h
    cases h
    left
    dsimp only
    split_ifs <;> decide
  case h_10 => exact .inl (runZadd_length h)
  case h_11 => exact .inl (runZrem_length h)
  case h_12 =>
    obtain hshort | hlines := runZrange_cases h
    · exact .inl hshort
    · exact .inr (.inr hlines)
  case h_13 => exact .inl (runSave_length h)
  case h_14 =>
    cases h
    exact .inl le_rfl

/-- Every result ends before the end of its buffer. -/
theorem runCommand_length (h : runCommand P n w s cfg cmd key value = some c) :
    c.1.length < resultSize := by
  obtain hshort | ⟨v, -, hlt, he⟩ | ⟨es, -, he⟩ := runCommand_cases h
  · exact hshort.trans_lt (by decide)
  · rw [he]
    exact hlt
  · rw [he]
    exact zrangeText_length (by decide)

end Results

/-- All of these bytes are there. -/
def AllInBounds (l : List Access) : Prop := ∀ a ∈ l, a.InBounds

/-- These are bytes of one buffer, in front of byte `z`. -/
def Within (f : ℕ → Access) (z : ℕ) (l : List Access) : Prop := ∀ a ∈ l, ∃ i < z, a = f i

section Ranges

variable {f : ℕ → Access} {l l' : List Access} {a : Access} {i n z : ℕ} {buffer : List UInt8}

theorem Within.nil : Within f z [] := by
  intro a ha
  cases ha

theorem Within.cons (hi : i < z) (h : Within f z l) : Within f z (f i :: l) := by
  intro b hb
  obtain rfl | hb := List.mem_cons.mp hb
  · exact ⟨i, hi, rfl⟩
  · exact h b hb

theorem Within.append (h : Within f z l) (h' : Within f z l') : Within f z (l ++ l') := by
  intro a ha
  obtain ha | ha := List.mem_append.mp ha
  · exact h a ha
  · exact h' a ha

theorem Within.range (h : i + n ≤ z) : Within f z (accessRange f i n) := by
  intro a ha
  obtain ⟨j, hj, rfl⟩ := List.mem_map.mp ha
  have := List.mem_range'_1.mp hj
  exact ⟨j, by omega, rfl⟩

theorem Within.forall {p : Access → Prop} (h : Within f z l) (hf : ∀ i < z, p (f i)) :
    ∀ a ∈ l, p a := by
  intro a ha
  obtain ⟨i, hi, rfl⟩ := h a ha
  exact hf i hi

theorem AllInBounds.nil : AllInBounds [] := by
  intro a ha
  cases ha

theorem AllInBounds.append (h : AllInBounds l) (h' : AllInBounds l') : AllInBounds (l ++ l') := by
  intro a ha
  obtain ha | ha := List.mem_append.mp ha
  · exact h a ha
  · exact h' a ha

theorem bufferRange (h : i + n ≤ readerBufferSize) : AllInBounds (accessRange .buffer i n) :=
  (Within.range h).forall fun _ hj => hj

theorem resultRange (h : i + n ≤ resultSize) : AllInBounds (accessRange .result i n) :=
  (Within.range h).forall fun _ hj => hj

theorem responseRange (h : i + n ≤ responseSize) : AllInBounds (accessRange .response i n) :=
  (Within.range h).forall fun _ hj => hj

theorem sendBufRange (h : i + n ≤ sendBufSize) : AllInBounds (accessRange .sendBuf i n) :=
  (Within.range h).forall fun _ hj => hj

/-- A string ends at the next NUL. -/
theorem read_length_le (hi : i ≤ z) (hz : buffer[z]? = some 0) :
    (CString.read (buffer.drop i)).length ≤ z - i := by
  by_contra hlt
  have hget : (buffer.drop i)[z - i]? = some 0 := by
    rw [List.getElem?_drop, Nat.add_sub_cancel' hi]
    exact hz
  obtain ⟨rest, hrest⟩ := List.takeWhile_prefix (l := buffer.drop i) (· ≠ (0 : UInt8))
  have hin : z - i < ((buffer.drop i).takeWhile (· ≠ 0)).length := not_le.mp hlt
  rw [← hrest, List.getElem?_append_left hin] at hget
  exact (CString.read (buffer.drop i)).nonzero (List.mem_of_getElem? hget)

theorem Within.readString (hi : i ≤ z) (hz : buffer[z]? = some 0) :
    Within .buffer (z + 1) (readString buffer i) := by
  have hlen := read_length_le hi hz
  exact .range (by omega)

/-- Another NUL does not move the one that ends the string. -/
theorem getElem_set_zero (hz : buffer[z]? = some 0) (i : ℕ) : (buffer.set i 0)[z]? = some 0 := by
  have hlt := (List.getElem?_eq_some_iff.mp hz).1
  by_cases h : i = z
  · subst h
    exact List.getElem?_set_self hlt
  · rw [List.getElem?_set_ne h]
    exact hz

end Ranges

section Payloads

variable {buffer : List UInt8} {i z : ℕ} {cmd : Option Cmd}

theorem Within.zaddAccesses (hi : i ≤ z) (hz : buffer[z]? = some 0) :
    Within .buffer (z + 1) (zaddAccesses buffer i cmd) := by
  unfold KvStore.zaddAccesses
  split
  · split
    · rename_i j hj
      have hlen := read_length_le hi hz
      have hj' := (List.findIdx?_eq_some_iff_getElem.mp hj).1
      rw [CString.length] at hlen
      exact .cons (by omega) (.readString (by omega) (getElem_set_zero hz _))
    · exact .nil
  · exact .nil

/-- The NUL behind the payload keeps everything in front of it. -/
theorem Within.payloadAccesses {dataLen : ℕ} (hlen : tcpHeaderSize + dataLen < buffer.length) :
    Within .buffer (tcpHeaderSize + dataLen + 1) (payloadAccesses buffer dataLen cmd) := by
  rw [KvStore.payloadAccesses]
  split_ifs with h0
  · exact .nil
  have hz : (buffer.set (tcpHeaderSize + dataLen) 0)[tcpHeaderSize + dataLen]? = some 0 :=
    List.getElem?_set_self hlen
  have hstart : tcpHeaderSize ≤ tcpHeaderSize + dataLen := Nat.le_add_right _ _
  dsimp only
  apply Within.append
  · exact .cons (Nat.lt_succ_self _) (.readString hstart hz)
  split
  · exact .nil
  · rename_i i hi
    have hread := read_length_le hstart hz
    have hi' := (List.findIdx?_eq_some_iff_getElem.mp hi).1
    rw [CString.length] at hread
    have hz' := getElem_set_zero hz (tcpHeaderSize + i)
    apply Within.append
    · apply Within.append
      · exact .cons (by omega) (.readString hstart hz')
      · exact .readString (by omega) hz'
    · exact .zaddAccesses (by omega) hz'

end Payloads

/-- A string fits into the result. -/
def CharPtr.Short : CharPtr → Prop
  | .str v => v.length < resultSize
  | _ => True

/-- The stored values, that is, what a `get` can find, are short. -/
structure Store.ShortValues {S : Type*} (s : Store S) : Prop where
  array : ∀ key r, kvsArrayGet s.array key = some r → r.1.Short
  tree : ∀ n key v, kvsRbtreeGet n s.rbtree key = some v → v.Short
  hash : ∀ key v, kvsHashGet s.hash key = some v → v.Short

theorem Store.ShortValues.finds {S : Type*} {s : Store S} (hs : s.ShortValues) {n : ℕ}
    {key : Option CString} {cmd : Option Cmd} {v : CString} (h : s.Finds n key (.str v) cmd) :
    v.length < resultSize := by
  unfold Finds at h
  split at h
  · obtain ⟨a, ha⟩ := h
    exact hs.array key _ ha
  · exact hs.tree n key _ h
  · exact hs.hash key _ h
  · exact h.elim

theorem Within.zrangeAccesses {S : Type*} {P : Scores S} (es : List (ZRangeEntry S)) {len : ℕ}
    (h : len < resultSize) : Within .result resultSize (zrangeAccesses P es len) := by
  induction es generalizing len with
  | nil => exact .nil
  | cons e es ih =>
    rw [KvStore.zrangeAccesses]
    apply Within.append
    · exact .range (by omega)
    · split_ifs with hfull
      · exact .nil
      · exact ih (by omega)

theorem splitPayload_buffer_length {buffer : List UInt8} {dataLen : ℕ} {p : Payload}
    (h : splitPayload buffer dataLen = some p) : p.buffer.length = buffer.length := by
  rw [splitPayload] at h
  split_ifs at h
  · cases h
    rfl
  · dsimp only at h
    split at h
    · cases h
      exact List.length_set
    · cases h
      dsimp only
      rw [List.length_set, List.length_set]

theorem Payload.length_afterCommand (p : Payload) (cmd : Option Cmd) :
    (p.afterCommand cmd).length = p.buffer.length := by
  unfold Payload.afterCommand
  split
  · split
    · exact List.length_set
    · rfl
  · rfl

section Rounds

variable {S : Type*} [Comparisons S] {P : Scores S} {cfg : ServerConfig} {n : ℕ} {w : Host}
  {s : Store S}

theorem Within.copyText {text : List UInt8} (h : text.length < resultSize) :
    Within .result resultSize (copyText text) := .range (by omega)

theorem Within.getAccesses {v : CharPtr} (h : ∀ v', v = .str v' → v'.length < resultSize) :
    Within .result resultSize (getAccesses v) := by
  cases v with
  | null => exact .copyText (by decide)
  | str v => exact .copyText (h v rfl)
  | uninit => exact .nil
  | freed => exact .nil

theorem forall_getD_iff {α β : Type*} {x : Option α} {f : α → List β} {p : β → Prop} :
    (∀ b ∈ (x.map f).getD [], p b) ↔ ∀ a, x = some a → ∀ b ∈ f a, p b := by
  cases x with
  | none => simp
  | some a => simp

theorem AllInBounds.getD {α : Type*} {x : Option α} {g : α → List Access}
    (h : ∀ a, x = some a → AllInBounds (g a)) : AllInBounds ((x.map g).getD []) :=
  forall_getD_iff.mpr h

theorem Within.getD {α : Type*} {x : Option α} {f : ℕ → Access} {z : ℕ} {g : α → List Access}
    (h : ∀ a, x = some a → Within f z (g a)) : Within f z ((x.map g).getD []) :=
  forall_getD_iff.mpr h

/-- The `switch` writes the result alone, and no further than its buffer goes where the value that a
`get` finds is short enough. -/
theorem Within.commandAccesses {cmd : Option Cmd} {key : Option CString}
    (hv : ∀ v, s.Finds n key (.str v) cmd → v.length < resultSize) (value : Option CString) :
    Within .result resultSize (commandAccesses P n w s cfg cmd key value) := by
  unfold KvStore.commandAccesses
  split
  · exact Within.getD fun r hr => .getAccesses fun v he => hv v ⟨r.2, by rw [hr, ← he]⟩
  · exact Within.getD fun r hr => .getAccesses fun v he => hv v (he ▸ hr)
  · exact Within.getD fun r hr => .getAccesses fun v he => hv v (he ▸ hr)
  · split
    · split
      · exact .copyText (errorText_length.trans_lt (by decide))
      · exact Within.getD fun es _ => .cons (by decide) (.zrangeAccesses es (by decide))
    · exact .copyText (errorText_length.trans_lt (by decide))
  · exact Within.getD fun c hc => .copyText (runCommand_length hc)

theorem buildAccesses_inBounds {len : ℕ} (h : len < resultSize) :
    AllInBounds (buildAccesses len) := by
  rw [resultSize] at h
  refine AllInBounds.append (.append (.append ?_ ?_) ?_) ?_
  · exact resultRange (by rw [resultSize]; omega)
  · exact responseRange (by decide)
  · exact resultRange (by rw [resultSize]; omega)
  · exact responseRange (by rw [tcpHeaderSize, responseSize]; omega)

theorem handlerAccesses_inBounds (hs : s.ShortValues) {buffer : List UInt8}
    (hsize : buffer.length = readerBufferSize) (len : ℕ) :
    AllInBounds (handlerAccesses P n w s cfg buffer len) := by
  have hparse : AllInBounds parseAccesses := bufferRange (by decide)
  rw [handlerAccesses]
  apply hparse.append
  split_ifs with h
  · exact .nil
  push Not at h
  refine AllInBounds.append (.append ?_ ?_) ?_
  · have hlt : tcpHeaderSize + (TcpHeader.read buffer).dataLen < readerBufferSize := by
      have hdata := dataLen_le (not_lt.mpr h.1)
      rw [tcpHeaderSize, readerBufferSize]
      omega
    exact (Within.payloadAccesses (by omega)).forall fun i hi => (show i < readerBufferSize by omega)
  · exact resultRange (by decide)
  · apply AllInBounds.getD
    intro p _
    refine AllInBounds.append ?_ ?_
    · exact (Within.commandAccesses (fun v => hs.finds) _).forall fun _ hi => hi
    · exact .getD fun c hc => buildAccesses_inBounds (runCommand_length hc)

/-- What the handler returns for a packet that is there: the length of the response. -/
theorem kvsTcpProtocol_ret {buffer : List UInt8} {len : ℕ} {h : Handled S}
    (hacc : Accepted buffer len) (hr : kvsTcpProtocol P cfg n w s buffer len = some h) :
    ∃ resp : ℕ, h.ret = resp ∧ h.response.length = resp ∧ 24 ≤ resp ∧ resp ≤ 1047 := by
  rw [hacc.kvsTcpProtocol] at hr
  obtain ⟨p, -, hr⟩ := Option.bind_eq_some_iff.mp hr
  obtain ⟨c, hc, hr⟩ := Option.bind_eq_some_iff.mp hr
  cases hr
  have hlen := runCommand_length hc
  rw [resultSize] at hlen
  refine ⟨_, rfl, rfl, ?_, ?_⟩
  · rw [buildTcpResponse, List.length_append, TcpHeader.length_bytes, tcpHeaderSize]
    omega
  · rw [buildTcpResponse, List.length_append, TcpHeader.length_bytes, tcpHeaderSize]
    omega

theorem kvsTcpProtocol_length {buffer : List UInt8} {len : ℕ} {h : Handled S}
    (hacc : Accepted buffer len) (hr : kvsTcpProtocol P cfg n w s buffer len = some h) :
    h.buffer.length = buffer.length := by
  rw [hacc.kvsTcpProtocol] at hr
  obtain ⟨p, hp, hr⟩ := Option.bind_eq_some_iff.mp hr
  obtain ⟨c, hc, hr⟩ := Option.bind_eq_some_iff.mp hr
  cases hr
  exact (p.length_afterCommand _).trans (splitPayload_buffer_length hp)

theorem roundAccesses_inBounds (hs : s.ShortValues) {buffer : List UInt8} {bufferLen : ℕ}
    (hsize : buffer.length = readerBufferSize) (hlen : bufferLen ≤ readerBufferSize) :
    AllInBounds (roundAccesses P n w s cfg buffer bufferLen) := by
  have hparse : AllInBounds parseAccesses := bufferRange (by decide)
  rw [roundAccesses]
  apply hparse.append
  split_ifs with h
  · exact .nil
  push Not at h
  obtain ⟨hpos, htotal⟩ := h
  refine AllInBounds.append (.append ?_ ?_) ?_
  · exact responseRange (by decide)
  · exact handlerAccesses_inBounds hs hsize _
  · apply AllInBounds.getD
    intro h hh
    have hvalid : (parseTcpHeader buffer).1 = 0 := by
      have := (parseTcpHeader_neg buffer).not.mp (not_lt.mpr hpos)
      exact not_ne_iff.mp this
    have hacc : Accepted buffer (tcpHeaderSize + (TcpHeader.read buffer).dataLen) :=
      ⟨Nat.le_add_right _ _, by omega, hvalid, le_rfl⟩
    obtain ⟨resp, hret, -, hlow, hhigh⟩ := kvsTcpProtocol_ret hacc hh
    have hnat : h.ret.toNat = resp := by rw [hret, Int.toNat_natCast]
    refine AllInBounds.append (.append ?_ ?_) ?_
    · split_ifs
      · rw [hnat]
        refine AllInBounds.append (.append ?_ ?_) ?_
        · exact sendBufRange (by decide)
        · exact responseRange (by rw [responseSize]; omega)
        · exact sendBufRange (by rw [tcpHeaderSize, sendBufSize]; omega)
      · exact .nil
    · exact bufferRange (by omega)
    · exact bufferRange (by omega)

end Rounds

/-- What can happen to a reader: it receives bytes, or goes through its loop over packets once
more, with the engines as they are then. -/
inductive ReaderEvent (S : Type*)
  | recv (chunk : List UInt8)
  | round (s : Store S) (n : ℕ) (w : Host)

section Events

variable {S : Type*} [Comparisons S] (P : Scores S) (cfg : ServerConfig)

/-- The loop over packets is over. -/
def Reader.Waits (r : Reader S) : Prop :=
  r.bufferLen < tcpHeaderSize ∨ 0 ≤ (parseTcpHeader r.buffer).1 ∧
    r.bufferLen < tcpHeaderSize + (TcpHeader.read r.buffer).dataLen

instance (r : Reader S) : Decidable r.Waits := inferInstanceAs (Decidable (_ ∨ _ ∧ _))

/-- `recv` is called behind the loop over packets, and gives at most the bytes it is asked for. -/
def readerStep (r : Reader S) : ReaderEvent S → Option (Reader S)
  | .recv chunk =>
    if r.closed ∨ ¬ r.Waits ∨ readerBufferSize - r.bufferLen < chunk.length then none
    else if chunk = [] then some { r with closed := true }
    else some { r with
      buffer := r.buffer.take r.bufferLen ++ (chunk ++ r.buffer.drop (r.bufferLen + chunk.length))
      bufferLen := r.bufferLen + chunk.length }
  | .round s n w =>
    if r.closed ∨ r.Waits then none
    else handlePackets P cfg (fun _ => (n, w)) 1 { r with store := s }

end Events

section Readers

variable {S : Type*} {r r' : Reader S} {p : RequestPacket}
  {received rest more : List UInt8}

/-- A reader without a whole packet waits. -/
theorem Reader.Holds.waits (h : r.Holds received) (hpacket : received ++ rest = p.bytes)
    (hrest : rest ≠ []) : r.Waits := by
  obtain ⟨junk, hbuffer⟩ := h.front
  have hlen := congrArg List.length hpacket
  have hpos := List.length_pos_iff.mpr hrest
  rw [List.length_append, p.length_bytes] at hlen
  by_cases hshort : r.bufferLen < tcpHeaderSize
  · exact .inl hshort
  · have hlong : tcpHeaderSize ≤ received.length := h.len ▸ not_lt.mp hshort
    have htake : (received ++ junk).take tcpHeaderSize = (p.bytes ++ []).take tcpHeaderSize := by
      rw [List.append_nil, ← hpacket, List.take_append_of_le_length hlong,
        List.take_append_of_le_length hlong]
    have hparse : parseTcpHeader r.buffer = (0, p.header) := by
      rw [hbuffer, ← parseTcpHeader_take, htake, parseTcpHeader_take, p.parse]
    have hdata : (TcpHeader.read r.buffer).dataLen = p.payload.length := by
      rw [← parseTcpHeader_snd, hparse]
      rfl
    refine .inr ⟨by rw [hparse], ?_⟩
    rw [h.len, hdata]
    omega

theorem Reader.Holds.waits_nil (h : r.Holds []) : r.Waits := by
  left
  rw [h.len]
  decide

/-- A reader with a whole packet goes through its loop. -/
theorem Reader.Holds.not_waits (h : r.Holds (p.bytes ++ more)) : ¬ r.Waits := by
  obtain ⟨junk, hbuffer⟩ := h.front
  have hlen := h.len
  rw [List.length_append, p.length_bytes] at hlen
  rintro (hshort | ⟨-, hless⟩)
  · omega
  · have hdata : (TcpHeader.read r.buffer).dataLen = p.payload.length := by
      rw [← parseTcpHeader_snd, hbuffer, List.append_assoc, p.parse]
      rfl
    rw [hdata] at hless
    omega

variable [Comparisons S] {P : Scores S} {cfg : ServerConfig} {s : Store S} {chunk : List UInt8}

theorem Reader.Holds.readerStep_recv (h : r.Holds received) (hchunk : chunk ≠ [])
    (hr : readerStep P cfg r (.recv chunk) = some r') : r'.Holds (received ++ chunk) := by
  obtain ⟨junk, hbuffer⟩ := h.front
  have hsize := h.size
  have hlen := h.len
  rw [readerStep] at hr
  split_ifs at hr with hstop
  cases hr
  push Not at hstop
  refine ⟨?_, h.opened, ?_, r.buffer.drop (r.bufferLen + chunk.length), ?_⟩
  · simp only [List.length_append, List.length_take, List.length_drop]
    rw [hbuffer, List.length_append] at hsize ⊢
    omega
  · rw [List.length_append, hlen]
  · rw [hlen, hbuffer, List.take_left, List.append_assoc]

/-- A reader that waits receives what there is room for. -/
theorem Reader.Holds.exists_recv (P : Scores S) (cfg : ServerConfig) (h : r.Holds received)
    (hwaits : r.Waits) (hchunk : chunk ≠ [])
    (hroom : received.length + chunk.length ≤ readerBufferSize) : ∃ r',
    readerStep P cfg r (.recv chunk) = some r' ∧ r'.Holds (received ++ chunk) ∧
      r'.calls = r.calls ∧ r'.sent = r.sent := by
  have hlen := h.len
  have hstop : ¬ (r.closed = true ∨ ¬ r.Waits ∨ readerBufferSize - r.bufferLen < chunk.length) := by
    rw [h.opened, hlen]
    simp only [Bool.false_eq_true, not_true_eq_false, hwaits, false_or]
    omega
  have hr : readerStep P cfg r (.recv chunk) = some { r with
      buffer := r.buffer.take r.bufferLen ++ (chunk ++ r.buffer.drop (r.bufferLen + chunk.length))
      bufferLen := r.bufferLen + chunk.length } := by
    rw [readerStep, if_neg hstop, if_neg hchunk]
  exact ⟨_, hr, h.readerStep_recv hchunk hr, rfl, rfl⟩

omit [Comparisons S] in
theorem Reader.Holds.withStore (h : r.Holds received) (s : Store S) :
    Reader.Holds { r with store := s } received := ⟨h.size, h.opened, h.len, h.front⟩

/-- The round of the loop that serves the packet at the front. -/
theorem Reader.Holds.readerStep_round (h : r.Holds (p.bytes ++ more)) {n : ℕ} {w : Host}
    (hr : readerStep P cfg r (.round s n w) = some r') : ∃ c : List UInt8 × Store S,
    p.result P cfg (n, w) s = some c ∧ r'.Holds (p.behind more) ∧
      r'.calls = r.calls ++ [p.bytes] ∧
      r'.sent = r.sent ++ [p.frame p.flags (p.frame 0 c.1)] ∧ r'.store = c.2 := by
  have hopened := h.opened
  rw [readerStep, if_neg (by simp [hopened, h.not_waits])] at hr
  obtain ⟨hnone, hsome⟩ := handlePackets_packet P cfg (fun _ => (n, w)) (h.withStore s) 0
  have hhandle := p.handle_eq P cfg (n, w) s
  cases hc : p.result P cfg (n, w) s with
  | none =>
    rw [hc] at hhandle
    rw [hnone hhandle] at hr
    cases hr
  | some c =>
    rw [hc] at hhandle
    obtain ⟨r₁, hround, hholds, hcalls, hsent, hstore⟩ := hsome _ hhandle
    rw [hround] at hr
    cases hr
    exact ⟨c, rfl, hholds, hcalls, hsent, hstore⟩

/-- The loop goes on exactly when the command comes back. -/
theorem Reader.Holds.readerStep_isSome (h : r.Holds (p.bytes ++ more)) {n : ℕ} {w : Host}
    (hc : (p.result P cfg (n, w) s).isSome) :
    (readerStep P cfg r (.round s n w)).isSome := by
  have hopened := h.opened
  obtain ⟨c, hc⟩ := Option.isSome_iff_exists.mp hc
  have hhandle := p.handle_eq P cfg (n, w) s
  rw [hc] at hhandle
  obtain ⟨-, hsome⟩ := handlePackets_packet P cfg (fun _ => (n, w)) (h.withStore s) 0
  obtain ⟨r₁, hround, -⟩ := hsome _ hhandle
  rw [readerStep, if_neg (by simp [hopened, h.not_waits]), hround]
  rfl

/-- The round that serves a packet with nothing behind it. -/
theorem Reader.Holds.readerStep_alone (h : r.Holds p.bytes) {n : ℕ} {w : Host}
    (hr : readerStep P cfg r (.round s n w) = some r') : ∃ c : List UInt8 × Store S,
    p.result P cfg (n, w) s = some c ∧ r'.Holds [] ∧
      r'.sent = r.sent ++ [p.frame p.flags (p.frame 0 c.1)] ∧ r'.store = c.2 := by
  rw [← List.append_nil p.bytes] at h
  obtain ⟨c, hc, hholds, -, hsent, hstore⟩ := h.readerStep_round hr
  rw [List.length_eq_zero_iff.mp (p.length_behind [])] at hholds
  exact ⟨c, hc, hholds, hsent, hstore⟩

end Readers

/-- The reader behind a packet that the handler is through with. -/
def Reader.behind {S : Type*} (r : Reader S) (h : Handled S) : Reader S :=
  let header := TcpHeader.read r.buffer
  let totalLen := tcpHeaderSize + header.dataLen
  { buffer := memmove h.buffer totalLen (r.bufferLen - totalLen)
    bufferLen := r.bufferLen - totalLen
    closed := false
    store := h.store
    calls := r.calls ++ [r.buffer.take totalLen]
    sent := if 0 < h.ret then r.sent ++ [sendBuf header (h.response.take h.ret.toNat)]
      else r.sent }

/-- The buffer has its size, and no more is received than it holds. -/
structure Reader.Sized {S : Type*} (r : Reader S) : Prop where
  size : r.buffer.length = readerBufferSize
  len : r.bufferLen ≤ readerBufferSize

theorem Reader.Sized.start {S : Type*} (s : Store S) : (Reader.start s).Sized :=
  ⟨List.length_replicate, Nat.zero_le _⟩

section Rounds

variable {S : Type*} [Comparisons S] {P : Scores S} {cfg : ServerConfig} {w : ℕ → ℕ × Host}
  {r r' : Reader S}

/-- The three ends of one round of the loop. -/
theorem handlePackets_waits (h : r.Waits) (k : ℕ) : handlePackets P cfg w k r = some r := by
  cases k with
  | zero => rfl
  | succ k =>
    rw [handlePackets]
    dsimp only
    rw [parseTcpHeader_snd]
    obtain hlen | ⟨hpos, hlen⟩ := h
    · rw [if_pos hlen]
    · rw [if_neg (not_lt.mpr hpos), if_pos hlen, ite_self]

theorem handlePackets_refused (h : ¬ r.Waits) (hneg : (parseTcpHeader r.buffer).1 < 0) (k : ℕ) :
    handlePackets P cfg w (k + 1) r = some { r with closed := true } := by
  rw [handlePackets]
  dsimp only
  rw [if_neg fun hlen => h (.inl hlen), if_pos hneg]

theorem handlePackets_handled (h : ¬ r.Waits) (hpos : 0 ≤ (parseTcpHeader r.buffer).1) (k : ℕ) :
    handlePackets P cfg w (k + 1) r =
      (kvsTcpProtocol P cfg (w r.calls.length).1 (w r.calls.length).2 r.store r.buffer
        (tcpHeaderSize + (TcpHeader.read r.buffer).dataLen)).bind fun h =>
          handlePackets P cfg w k (r.behind h) := by
  rw [handlePackets]
  dsimp only
  rw [if_neg fun hlen => h (.inl hlen), if_neg (not_lt.mpr hpos), parseTcpHeader_snd,
    if_neg fun hlen => h (.inr ⟨hpos, hlen⟩)]
  rfl

/-- The loop over packets is rounds, up to the state in which the reader waits or has closed. -/
theorem handlePackets_rounds (hopen : r.closed = false) (h : ¬ r.Waits) (k : ℕ) :
    handlePackets P cfg w (k + 1) r =
      (readerStep P cfg r (.round r.store (w r.calls.length).1 (w r.calls.length).2)).bind
        fun r' => if r'.closed then some r' else handlePackets P cfg w k r' := by
  rw [readerStep, if_neg (by simp [hopen, h])]
  by_cases hneg : (parseTcpHeader r.buffer).1 < 0
  · rw [handlePackets_refused h hneg, handlePackets_refused h hneg, Option.bind_some, if_pos rfl]
  · have hpos := not_lt.mp hneg
    rw [handlePackets_handled h hpos, handlePackets_handled h hpos, Option.bind_assoc]
    rfl

/-- What one round does, with the engines as they are when it starts. -/
theorem readerStep_round {s : Store S} {n : ℕ} {sys : Host} (hsized : r.Sized)
    (h : readerStep P cfg r (.round s n sys) = some r') :
    r.closed = false ∧ ¬ r.Waits ∧
    (r' = { r with closed := true, store := s } ∨
      ∃ x, Accepted r.buffer (tcpHeaderSize + (TcpHeader.read r.buffer).dataLen) ∧
        tcpHeaderSize + (TcpHeader.read r.buffer).dataLen ≤ r.bufferLen ∧
        kvsTcpProtocol P cfg n sys s r.buffer
          (tcpHeaderSize + (TcpHeader.read r.buffer).dataLen) = some x ∧ r' = r.behind x) := by
  rw [readerStep] at h
  split_ifs at h with hstop
  push Not at hstop
  have hwaits : ¬ r.Waits := hstop.2
  have hwaits' : ¬ { r with store := s }.Waits := hstop.2
  refine ⟨Bool.eq_false_iff.mpr hstop.1, hwaits, ?_⟩
  by_cases hneg : (parseTcpHeader r.buffer).1 < 0
  · rw [handlePackets_refused hwaits' hneg] at h
    cases h
    exact .inl rfl
  · have hpos := not_lt.mp hneg
    rw [handlePackets_handled hwaits' hpos] at h
    obtain ⟨x, hx, h⟩ := Option.bind_eq_some_iff.mp h
    cases h
    have hvalid : (parseTcpHeader r.buffer).1 = 0 :=
      not_ne_iff.mp ((parseTcpHeader_neg r.buffer).not.mp hneg)
    have htotal : tcpHeaderSize + (TcpHeader.read r.buffer).dataLen ≤ r.bufferLen :=
      not_lt.mp fun hlen => hwaits (.inr ⟨hpos, hlen⟩)
    have hsize := hsized.size
    have hlen := hsized.len
    exact .inr ⟨x, ⟨Nat.le_add_right _ _, by omega, hvalid, le_rfl⟩, htotal, hx, rfl⟩

theorem readerStep_sized {e : ReaderEvent S} (hsized : r.Sized)
    (h : readerStep P cfg r e = some r') : r'.Sized := by
  have hsize := hsized.size
  have hlen := hsized.len
  cases e with
  | recv chunk =>
    rw [readerStep] at h
    split_ifs at h with hstop hend
    · cases h
      exact ⟨hsize, hlen⟩
    · cases h
      push Not at hstop
      constructor
      · rw [List.length_append, List.length_append, List.length_take, List.length_drop]
        omega
      · dsimp only
        omega
  | round s n sys =>
    obtain ⟨-, -, rfl | ⟨x, hacc, htotal, hx, rfl⟩⟩ := readerStep_round hsized h
    · exact ⟨hsize, hlen⟩
    · have hx' := kvsTcpProtocol_length hacc hx
      constructor
      · rw [Reader.behind, length_memmove (by omega), hx', hsize]
      · exact (Nat.sub_le _ _).trans hlen

theorem foldlM_sized (hsized : r.Sized) (es : List (ReaderEvent S))
    (h : es.foldlM (readerStep P cfg) r = some r') : r'.Sized := by
  induction es generalizing r with
  | nil =>
    cases h
    exact hsized
  | cons e es ih =>
    obtain ⟨r₁, hr₁, h⟩ := Option.bind_eq_some_iff.mp h
    exact ih (readerStep_sized hsized hr₁) h

/-- Every round of the loop takes at least a header away, or is the last one. -/
theorem rounds_length (hsized : r.Sized) (rounds : List (Store S × ℕ × Host))
    (h : rounds.foldlM (fun r q => readerStep P cfg r (.round q.1 q.2.1 q.2.2)) r = some r') :
    tcpHeaderSize * rounds.length ≤ r.bufferLen := by
  induction rounds generalizing r with
  | nil => exact Nat.zero_le _
  | cons q rounds ih =>
    obtain ⟨r₁, hr₁, h⟩ := Option.bind_eq_some_iff.mp h
    obtain ⟨-, hwaits, hcase⟩ := readerStep_round hsized hr₁
    have hheader : tcpHeaderSize ≤ r.bufferLen := not_lt.mp fun hlen => hwaits (.inl hlen)
    have hrest := ih (readerStep_sized hsized hr₁) h
    obtain rfl | ⟨x, -, htotal, -, rfl⟩ := hcase
    · cases rounds with
      | nil => exact hheader
      | cons q rounds =>
        rw [List.foldlM_cons] at h
        obtain ⟨r₂, hr₂, -⟩ := Option.bind_eq_some_iff.mp h
        obtain ⟨hopen, -⟩ := readerStep_round (readerStep_sized hsized hr₁) hr₂
        cases hopen
    · have hless : (r.behind x).bufferLen + tcpHeaderSize ≤ r.bufferLen := by
        rw [Reader.behind]
        dsimp only
        omega
      rw [List.length_cons, Nat.mul_succ]
      omega

end Rounds

/-- A reader that waits has less than a header, or less than the longest packet. -/
theorem Reader.Waits.le {S : Type*} {r : Reader S} (h : r.Waits) : r.bufferLen ≤ 1047 := by
  obtain hlen | ⟨hpos, hlen⟩ := h
  · rw [tcpHeaderSize] at hlen
    omega
  · have hdata := dataLen_le (not_lt.mpr hpos)
    rw [tcpHeaderSize] at hlen
    omega

end KvStore
