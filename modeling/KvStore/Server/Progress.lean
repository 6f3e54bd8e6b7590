import KvStore.Server.Footprint
import KvStore.Server.Ready

/-! When the loop over packets of `server_reader` comes to its end: a round of it is one call of the
handler, and this comes back when its command is ready. -/
namespace KvStore
open Fuel KvsArray HashTable

theorem exists_splitPayload {buffer : List UInt8} {n : ℕ} (h : tcpHeaderSize + n < buffer.length) :
    ∃ p, splitPayload buffer n = some p := by
  obtain rfl | hn := Nat.eq_zero_or_pos n
  · exact ⟨_, if_pos rfl⟩
  · rw [splitPayload_eq hn h]
    dsimp only
    split
    · exact ⟨_, rfl⟩
    · exact ⟨_, rfl⟩

/-- The packet at the front of the buffer is refused for its header, or its command is ready. -/
def Reader.Proceeds {S : Type*} (cfg : ServerConfig) (r : Reader S) (s : Store S) (w : Host) : Prop :=
  (parseTcpHeader r.buffer).1 < 0 ∨
  ∃ p, splitPayload r.buffer (TcpHeader.read r.buffer).dataLen = some p ∧
    Ready cfg w s (Cmd.ofCode (TcpHeader.read r.buffer).cmdType) p.key p.value

section Rounds

variable {S : Type*} [Comparisons S] [Zero S] {P : Scores S} {cfg : ServerConfig} {r r' : Reader S}
  {s : Store S} {w : Host}

/-- One round of the loop over packets comes to its end exactly when its packet proceeds. -/
theorem Reader.Sized.round_iff (hsized : r.Sized) (hopen : r.closed = false) (hwaits : ¬ r.Waits)
    (h : s.Sane) (hs : s.ShortValues) (hw : s.Given w) :
    (∃ r', Returns (fun n => readerStep P cfg r (.round s n w)) r') ↔ r.Proceeds cfg s w := by
  have hstep : ∀ n, readerStep P cfg r (.round s n w) =
      handlePackets P cfg (fun _ => (n, w)) 1 { r with store := s } := by
    intro n
    rw [readerStep, if_neg (by simp [hopen, hwaits])]
  have hwaits' : ¬ { r with store := s }.Waits := hwaits
  simp only [hstep]
  by_cases hneg : (parseTcpHeader r.buffer).1 < 0
  · simp only [handlePackets_refused hwaits' hneg]
    exact iff_of_true ⟨_, .some _⟩ (.inl hneg)
  have hpos := not_lt.mp hneg
  have hvalid : (parseTcpHeader r.buffer).1 = 0 :=
    not_ne_iff.mp ((parseTcpHeader_neg r.buffer).not.mp hneg)
  have htotal : tcpHeaderSize + (TcpHeader.read r.buffer).dataLen ≤ r.bufferLen :=
    not_lt.mp fun hlen => hwaits (.inr ⟨hpos, hlen⟩)
  have hsize := hsized.size
  have hlen := hsized.len
  have hacc : Accepted r.buffer (tcpHeaderSize + (TcpHeader.read r.buffer).dataLen) :=
    ⟨Nat.le_add_right _ _, by omega, hvalid, le_rfl⟩
  -- the byte behind a payload is always one of the buffer
  have hroom : tcpHeaderSize + (TcpHeader.read r.buffer).dataLen < r.buffer.length := by
    have hdata := hacc.dataLen_le
    rw [hsize, tcpHeaderSize, readerBufferSize]
    omega
  obtain ⟨p, hp⟩ := exists_splitPayload hroom
  have hproceeds : r.Proceeds cfg s w ↔
      Ready cfg w s (Cmd.ofCode (TcpHeader.read r.buffer).cmdType) p.key p.value := by
    simp [Proceeds, hneg, hp]
  rw [hproceeds, ← h.returns_iff (P := P) hs hw]
  have hgrow := runCommand_growing P cfg w s (Cmd.ofCode (TcpHeader.read r.buffer).cmdType) p.key p.value
  rw [← hgrow.exists_returns_bind_iff (g := fun c => Reader.behind { r with store := s }
    ⟨_, p.afterCommand _, buildTcpResponse (TcpHeader.read r.buffer).cmdType
      (TcpHeader.read r.buffer).seqId c.1, c.2⟩)]
  simp only [handlePackets_handled hwaits' hpos, hacc.kvsTcpProtocol, hp, Option.bind_some,
    Option.bind_assoc]
  rfl

end Rounds

/-- The loop over packets is over: the reader has returned, or calls `recv` next. -/
def Reader.Done {S : Type*} (r : Reader S) : Prop := r.closed = true ∨ r.Waits

section Loop

variable {S : Type*} [Comparisons S] {P : Scores S} {cfg : ServerConfig}
  {sys : ℕ → Store S × Host} {r r₁ r₂ : Reader S} {j k : ℕ}

/-- Rounds of the loop over packets from a reader on. Round `k` finds the engines and the system as
they are then: other connections may have been served since the round before. -/
inductive Reader.Loops (P : Scores S) (cfg : ServerConfig) (sys : ℕ → Store S × Host) (r : Reader S) :
    ℕ → Reader S → Prop
  | start : Loops P cfg sys r 0 r
  | round {k : ℕ} {r₁ r₂ : Reader S} (h : Loops P cfg sys r k r₁)
    (hr : Returns (fun n => readerStep P cfg r₁ (.round (sys k).1 n (sys k).2)) r₂) :
    Loops P cfg sys r (k + 1) r₂

namespace Reader.Loops

theorem unique (h₁ : r.Loops P cfg sys k r₁) (h₂ : r.Loops P cfg sys k r₂) : r₁ = r₂ := by
  induction h₁ generalizing r₂ with
  | start =>
    cases h₂
    rfl
  | round _ hr ih =>
    cases h₂ with
    | round h hr' =>
      cases ih h
      exact hr.unique hr'

/-- The rounds before the last. -/
theorem before (h : r.Loops P cfg sys k r₂) (hj : j < k) : ∃ r₁ r', r.Loops P cfg sys j r₁ ∧
    Returns (fun n => readerStep P cfg r₁ (.round (sys j).1 n (sys j).2)) r' := by
  induction h with
  | start => omega
  | @round k r₁ r' h hr ih =>
    obtain rfl | hlt := eq_or_lt_of_le (Nat.le_of_lt_succ hj)
    · exact ⟨r₁, r', h, hr⟩
    · exact ih hlt

/-- They are rounds of a reader that serves its events one after the other. -/
theorem rounds (h : r.Loops P cfg sys k r₁) : ∃ rounds : List (Store S × ℕ × Host),
    rounds.length = k ∧
    rounds.foldlM (fun r q => readerStep P cfg r (.round q.1 q.2.1 q.2.2)) r = some r₁ := by
  induction h with
  | start => exact ⟨[], rfl, rfl⟩
  | @round k r₁ r' h hr ih =>
    obtain ⟨rounds, hlen, hfold⟩ := ih
    obtain ⟨n, hn⟩ := hr
    refine ⟨rounds ++ [((sys k).1, n, (sys k).2)], by simp [hlen], ?_⟩
    simp [List.foldlM_append, hfold, hn n le_rfl]

theorem sized (h : r.Loops P cfg sys k r₁) (hsized : r.Sized) : r₁.Sized := by
  induction h with
  | start => exact hsized
  | round _ hr ih =>
    obtain ⟨n, hn⟩ := hr
    exact readerStep_sized ih (hn n le_rfl)

end Reader.Loops

/-- No round starts behind the end of the loop. -/
theorem Reader.Done.not_returns (h : r.Done) {s : Store S} {w : Host} :
    ¬ Returns (fun n => readerStep P cfg r (.round s n w)) r₁ := by
  rintro ⟨n, hn⟩
  have hr := hn n le_rfl
  have hstop : r.closed = true ∨ r.Waits := h
  dsimp only at hr
  rw [readerStep, if_pos hstop] at hr
  cases hr

variable [Zero S]

/-- What a round can find: a state of the server with short values, and a system that gives memory. -/
structure InService (P : Scores S) (cfg : ServerConfig) (x : Store S × Host) : Prop where
  reached : x.1.Reached P cfg
  short : x.1.ShortValues
  given : x.1.Given x.2

/-- The loop over packets comes to its end exactly when every packet that it gets to proceeds. -/
theorem Reader.Sized.ends_iff (hsized : r.Sized) (hsys : ∀ k, InService P cfg (sys k)) :
    (∃ k r', r.Loops P cfg sys k r' ∧ r'.Done) ↔
      ∀ k r', r.Loops P cfg sys k r' → ¬ r'.Done → r'.Proceeds cfg (sys k).1 (sys k).2 := by
  have hround : ∀ k r', r.Loops P cfg sys k r' → ¬ r'.Done →
      ((∃ r₁, Returns (fun n => readerStep P cfg r' (.round (sys k).1 n (sys k).2)) r₁) ↔
        r'.Proceeds cfg (sys k).1 (sys k).2) := by
    intro k r' h hdone
    rw [Done, not_or, Bool.not_eq_true] at hdone
    exact (h.sized hsized).round_iff hdone.1 hdone.2 (hsys k).reached.sane (hsys k).short (hsys k).given
  constructor
  · rintro ⟨k₀, r₀, h₀, hdone₀⟩ k r' h hdone
    obtain hlt | rfl | hgt := Nat.lt_trichotomy k k₀
    · obtain ⟨r₁, r₂, h₁, hr⟩ := h₀.before hlt
      rw [h₁.unique h] at hr
      exact (hround k r' h hdone).mp ⟨r₂, hr⟩
    · rw [h.unique h₀] at hdone
      exact absurd hdone₀ hdone
    · obtain ⟨r₁, r₂, h₁, hr⟩ := h.before hgt
      rw [h₁.unique h₀] at hr
      exact absurd hr hdone₀.not_returns
  · intro hall
    by_contra hnever
    push Not at hnever
    -- without an end there would be any number of rounds, but each takes a header away
    have hgo : ∀ k, ∃ r', r.Loops P cfg sys k r' := by
      intro k
      induction k with
      | zero => exact ⟨r, .start⟩
      | succ k ih =>
        obtain ⟨r', h⟩ := ih
        have hdone := hnever k r' h
        obtain ⟨r₁, hr⟩ := (hround k r' h hdone).mpr (hall k r' h hdone)
        exact ⟨r₁, .round h hr⟩
    obtain ⟨r', h⟩ := hgo (r.bufferLen + 1)
    obtain ⟨rounds, hlen, hfold⟩ := h.rounds
    have hbound := rounds_length hsized rounds hfold
    rw [hlen, tcpHeaderSize] at hbound
    omega

variable (P cfg) in
/-- Whatever is received, in whatever pieces, the buffers are kept, and every packet that is handled
is answered with one message. The loop over packets comes to its end exactly when no round of it
finds a mutex that is held, or memory that its command cannot use. -/
theorem serverReader_bounded_iff (s : Store S) (es : List (ReaderEvent S)) (r : Reader S)
    (h : es.foldlM (readerStep P cfg) (Reader.start s) = some r) :
    r.Bounded P cfg ∧
    ∀ sys : ℕ → Store S × Host, (∀ k, InService P cfg (sys k)) →
      ((∃ k r', r.Loops P cfg sys k r' ∧ r'.Done) ↔
        ∀ k r', r.Loops P cfg sys k r' → ¬ r'.Done → r'.Proceeds cfg (sys k).1 (sys k).2) := by
  have hsized := foldlM_sized (Reader.Sized.start s) es h
  exact ⟨hsized.bounded, fun sys hsys => hsized.ends_iff hsys⟩

end Loop

section Packets

variable {S : Type*} {cfg : ServerConfig} {r : Reader S} {p : RequestPacket} {more : List UInt8}

/-- A packet at the front of the buffer proceeds when its command is ready with its arguments. -/
theorem Reader.Holds.proceeds_iff (h : r.Holds (p.bytes ++ more)) {s : Store S} {w : Host} :
    r.Proceeds cfg s w ↔ Ready cfg w s (Cmd.ofCode p.cmdType) (RequestPacket.args p.payload).1
      (RequestPacket.args p.payload).2 := by
  obtain ⟨junk, hbuffer⟩ := h.front
  have hparse : parseTcpHeader r.buffer = (0, p.header) := by
    rw [hbuffer, List.append_assoc, p.parse]
  have hread : TcpHeader.read r.buffer = p.header := by
    rw [← parseTcpHeader_snd, hparse]
  have hsize := h.size
  have hlen : p.payload ≠ [] → more ++ junk ≠ [] := by
    intro _ hnil
    have hpay := p.payload_le
    rw [hbuffer, List.append_assoc, hnil, List.append_nil, p.length_bytes, tcpHeaderSize,
      readerBufferSize] at hsize
    omega
  obtain ⟨front, -, hsplit⟩ := p.split hlen
  have hdata : splitPayload r.buffer p.header.dataLen = some
      ⟨front ++ p.behind (more ++ junk), (RequestPacket.args p.payload).1,
        (RequestPacket.args p.payload).2⟩ := by
    rw [hbuffer, List.append_assoc]
    exact hsplit
  rw [Proceeds, hparse, hread, or_iff_right (lt_irrefl 0), hdata]
  constructor
  · rintro ⟨a, ha, hready⟩
    cases ha
    exact hready
  · intro hready
    exact ⟨_, rfl, hready⟩

theorem Reader.Holds.not_done (h : r.Holds (p.bytes ++ more)) : ¬ r.Done := by
  rintro (hclosed | hwaits)
  · rw [h.opened] at hclosed
    cases hclosed
  · exact h.not_waits hwaits

end Packets

/-- The values of engines that hold maps of short values. -/
theorem Store.ShortValues.of_keeps {S : Type*} {s : Store S} {M : Engine → CString → Option CString}
    (h : ∀ e, s.Keeps e (M e)) : s.ShortValues := by
  have hshort : ∀ {m : CString → Option CString}, Short m → ∀ k, CharPtr.Short ((m k).elim .null .str) := by
    intro m hm k
    cases hv : m k with
    | none => trivial
    | some v => exact hm k v hv
  constructor
  · intro key r hr
    cases key with
    | none =>
      rw [kvsArrayGet_refused] at hr
      split_ifs at hr
      cases hr
      trivial
    | some k =>
      rw [(h .array).1.get k] at hr
      cases hr
      exact hshort (h .array).2 k
  · intro n key v hr
    cases key with
    | none =>
      cases hr
      trivial
    | some k =>
      have hget := ((s.rbtree.kvsRbtreeGet_growing (some k)).returns hr).unique ((h .tree).1.get k)
      rw [hget]
      exact hshort (h .tree).2 k
  · intro key v hr
    cases key with
    | none =>
      cases hr
      trivial
    | some k =>
      obtain ⟨m, hm, hs⟩ : ∃ m, s.hash.Maps m ∧ Short m := ⟨_, h .hash⟩
      have hk := (kvsHashGet_isSome_iff hm).mp (by rw [hr]; rfl)
      rw [hm.get hk] at hr
      cases hr
      exact hshort hs k

theorem emptyServer_started : emptyServer.Started :=
  ⟨rfl, ⟨Rbtree.blank, 1, by decide, rfl⟩, rfl, ⟨fun _ => none, 9, by decide, rfl⟩⟩

theorem emptyServer_keeps (e : Engine) : emptyServer.Keeps e fun _ => none :=
  .fresh (T := Rbtree.blank) (p := 1) (by decide) rfl rfl e fun _ => rfl

theorem emptyServer_given : emptyServer.Given roomyHost := by
  refine ⟨fun p hp => ?_, ⟨by decide, rfl⟩, by decide⟩
  cases hp
  exact Rbtree.blank_free

theorem pair_le : ([97, 32, 98] : List UInt8).length ≤ 1024 := by decide

theorem letter_le : ([97] : List UInt8).length ≤ 1024 := by decide

/-- A `SET` of `a` to `b`, a `GET` of `a`, and a `GET` without a key. -/
def setPair : RequestPacket :=
  ⟨1, 0, 0, [97, 32, 98], Nat.le_of_ble_eq_true rfl, Nat.le_of_ble_eq_true rfl,
    Nat.le_of_ble_eq_true rfl, pair_le⟩
def getPair : RequestPacket :=
  ⟨2, 0, 0, [97], Nat.le_of_ble_eq_true rfl, Nat.le_of_ble_eq_true rfl,
    Nat.le_of_ble_eq_true rfl, letter_le⟩
def getNothing : RequestPacket :=
  ⟨2, 0, 0, [], Nat.le_of_ble_eq_true rfl, Nat.le_of_ble_eq_true rfl,
    Nat.le_of_ble_eq_true rfl, Nat.le_of_ble_eq_true rfl⟩

/-- The server behind the `SET`. -/
def pairServer : Store ℕ :=
  { emptyServer with array := kvsArrayCreate.filled 0 (.read [97]) (.read [98]) }

theorem setPair_result : setPair.result plainScores plainConfig (0, roomyHost) emptyServer =
    some (okText, pairServer) := by
  rfl

/-- A request takes the server from one state that it can be in to the next. -/
theorem Store.Reached.result {S : Type*} [Comparisons S] [Zero S] {P : Scores S} {cfg : ServerConfig}
    {s s' : Store S} {w : Host} {n : ℕ} {p : RequestPacket} {t : List UInt8}
    (h : s.Reached P cfg) (hw : s.Given w) (hres : p.result P cfg (n, w) s = some (t, s')) :
    s'.Reached P cfg := by
  obtain ⟨front, -, hcall⟩ := p.call_eq P cfg fun _ => List.cons_ne_nil (0 : UInt8) []
  have hx := hcall (n, w) s
  rw [RequestPacket.result] at hres
  rw [hres] at hx
  exact .request h hw hx

/-- What the engines hold behind the `SET`. -/
def pairMaps : Engine → CString → Option CString
  | .array => KeyValue.next (fun _ => none) (.set (.read [97]) (.read [98]))
  | _ => fun _ => none

theorem pairServer_keeps (e : Engine) : pairServer.Keeps e (pairMaps e) := by
  cases e with
  | array =>
    obtain ⟨a, hset, ha, -⟩ := Dense.create.set (p := ⟨true, true⟩) rfl (by decide) (.read [97]) (.read [98])
    have hsame : kvsArraySet kvsArrayCreate ⟨true, true⟩ (some (.read [97])) (some (.read [98])) =
        some (0, pairServer.array) := rfl
    rw [hsame] at hset
    cases hset
    refine ⟨ha, fun k v hk => ?_⟩
    by_cases hka : k = .read [97]
    · rw [pairMaps, KeyValue.next, if_neg (by decide), hka, Function.update_self] at hk
      cases hk
      decide
    · rw [pairMaps, KeyValue.next, if_neg (by decide), Function.update_of_ne hka] at hk
      cases hk
  | tree => exact emptyServer_keeps .tree
  | hash => exact emptyServer_keeps .hash

theorem pairServer_service : InService plainScores plainConfig (pairServer, roomyHost) :=
  ⟨(Store.Reached.start emptyServer_started).result emptyServer_given setPair_result,
    .of_keeps pairServer_keeps, emptyServer_given.node, emptyServer_given.member,
    emptyServer_given.level⟩

/-- The `SET` is served before the `GET` is there, and the loop over this one comes to its end. -/
theorem serverReader_bounded_iff_pair : ∃ r : Reader ℕ,
    [.recv setPair.bytes, .round emptyServer 0 roomyHost, .recv getPair.bytes].foldlM
      (readerStep plainScores plainConfig) (Reader.start emptyServer) = some r ∧
    r.calls = [setPair.bytes] ∧ r.sent.length = 1 ∧ r.Bounded plainScores plainConfig ∧
    ∃ k r', r.Loops plainScores plainConfig (fun _ => (pairServer, roomyHost)) k r' ∧ r'.Done := by
  have hstart := start_holds emptyServer
  obtain ⟨r₁, h₁, hholds₁, hcalls₁, hsent₁⟩ := hstart.exists_recv plainScores plainConfig
    hstart.waits_nil setPair.bytes_ne (by decide)
  rw [List.nil_append, ← List.append_nil setPair.bytes] at hholds₁
  obtain ⟨r₂, h₂⟩ := Option.isSome_iff_exists.mp (hholds₁.readerStep_isSome
    (show (setPair.result plainScores plainConfig (0, roomyHost) emptyServer).isSome from rfl))
  obtain ⟨c, -, hholds₂, hcalls₂, hsent₂, -⟩ := hholds₁.readerStep_round h₂
  rw [List.length_eq_zero_iff.mp (setPair.length_behind [])] at hholds₂
  obtain ⟨r, h₃, hholds, hcalls, hsent⟩ := hholds₂.exists_recv plainScores plainConfig
    hholds₂.waits_nil getPair.bytes_ne (by decide)
  rw [List.nil_append, ← List.append_nil getPair.bytes] at hholds
  have hrun : [.recv setPair.bytes, .round emptyServer 0 roomyHost, .recv getPair.bytes].foldlM
      (readerStep plainScores plainConfig) (Reader.start emptyServer) = some r := by
    simp [h₁, h₂, h₃]
  obtain ⟨hbounded, hends⟩ := serverReader_bounded_iff plainScores plainConfig emptyServer _ r hrun
  refine ⟨r, hrun, ?_, ?_, hbounded, (hends _ fun _ => pairServer_service).mpr ?_⟩
  · rw [hcalls, hcalls₂, hcalls₁]
    rfl
  · rw [hsent, hsent₂, hsent₁]
    rfl
  · intro k r' h hdone
    have hnow := (pairServer_keeps .array).1
    have hready : r.Proceeds plainConfig pairServer roomyHost :=
      hholds.proceeds_iff.mpr fun _ => ⟨hnow.unlocked, hnow.unobstructed true _, hnow.not_lost _⟩
    cases k with
    | zero =>
      cases h
      exact hready
    | succ k =>
      -- the first round has emptied the buffer
      obtain ⟨q, q', hq, n, hn⟩ := h.before (Nat.succ_pos k)
      cases hq
      obtain ⟨c, -, hholds', -⟩ := hholds.readerStep_round (hn n le_rfl)
      rw [List.length_eq_zero_iff.mp (getPair.length_behind [])] at hholds'
      have hq' : r.Loops plainScores plainConfig (fun _ => (pairServer, roomyHost)) 1 q' :=
        .round .start ⟨n, hn⟩
      cases k with
      | zero =>
        rw [h.unique hq'] at hdone
        exact absurd (.inr hholds'.waits_nil) hdone
      | succ k =>
        obtain ⟨q₁, q₂, hq₁, hreturns⟩ := h.before (show 1 < k + 1 + 1 by omega)
        rw [hq₁.unique hq'] at hreturns
        exact absurd hreturns (Reader.Done.not_returns (.inr hholds'.waits_nil))

/-- The server with the mutex of its array held, as a `GET` without a key leaves it. -/
def lockedServer : Store ℕ := { emptyServer with array := { kvsArrayCreate with locked := true } }

theorem getNothing_result : getNothing.result plainScores plainConfig (0, roomyHost) emptyServer =
    some (noExistText, lockedServer) := rfl

theorem lockedServer_service : InService plainScores plainConfig (lockedServer, roomyHost) := by
  refine ⟨(Store.Reached.start emptyServer_started).result emptyServer_given getNothing_result,
    ⟨fun key r hr => ?_, ?_, ?_⟩, emptyServer_given.node, emptyServer_given.member,
    emptyServer_given.level⟩
  · cases locked_of_lock hr
  · exact (Store.ShortValues.of_keeps emptyServer_keeps).tree
  · exact (Store.ShortValues.of_keeps emptyServer_keeps).hash

/-- Two `GET`s in one piece, the first one without a key: the loop never comes to its end. -/
theorem serverReader_blocks : ¬ ∀ (s : Store ℕ) (es : List (ReaderEvent ℕ)) (r : Reader ℕ),
    es.foldlM (readerStep plainScores plainConfig) (Reader.start s) = some r →
    ∀ sys : ℕ → Store ℕ × Host, (∀ k, InService plainScores plainConfig (sys k)) →
      ∃ k r', r.Loops plainScores plainConfig sys k r' ∧ r'.Done := by
  intro hall
  have hstart := start_holds emptyServer
  have hne : getNothing.bytes ++ getPair.bytes ≠ [] :=
    List.append_ne_nil_of_left_ne_nil getNothing.bytes_ne _
  obtain ⟨r, hr, hholds, -⟩ := hstart.exists_recv plainScores plainConfig hstart.waits_nil hne
    (by decide)
  rw [List.nil_append] at hholds
  let sys : ℕ → Store ℕ × Host := fun k => (if k = 0 then emptyServer else lockedServer, roomyHost)
  have hempty : InService plainScores plainConfig (emptyServer, roomyHost) :=
    ⟨.start emptyServer_started, .of_keeps emptyServer_keeps, emptyServer_given⟩
  have hsys : ∀ k, InService plainScores plainConfig (sys k) := by
    intro k
    cases k with
    | zero => exact hempty
    | succ k => exact lockedServer_service
  have hsized : r.Sized := readerStep_sized (Reader.Sized.start emptyServer) hr
  have hfirst : r.Proceeds plainConfig emptyServer roomyHost :=
    hholds.proceeds_iff.mpr fun _ => ⟨rfl, trivial⟩
  obtain ⟨r₁, hr₁⟩ := (hsized.round_iff hholds.opened hholds.not_waits hempty.reached.sane hempty.short
    hempty.given).mpr hfirst
  obtain ⟨n, hn⟩ := id hr₁
  obtain ⟨c, -, hholds₁, -⟩ := hholds.readerStep_round (hn n le_rfl)
  have hbehind : getNothing.behind getPair.bytes = getPair.bytes ++ [] := by
    rw [List.append_nil]
    rfl
  rw [hbehind] at hholds₁
  -- the second `GET` finds the mutex held
  have hends := hall emptyServer [.recv (getNothing.bytes ++ getPair.bytes)] r (by simp [hr]) sys hsys
  have hsecond := (hsized.ends_iff hsys).mp hends 1 r₁ (.round .start hr₁) hholds₁.not_done
  have hready := hholds₁.proceeds_iff.mp hsecond
  cases (hready rfl).1

end KvStore
