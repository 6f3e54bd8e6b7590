import KvStore.Network.Reading

/-! One request after the other. A client that is in front of a `Write` gets the response to its next
request while the other connections rest, so that every order of the requests that the engines can
answer is the history of a run. -/
namespace KvStore
open History

/-- The packet that the client writes. -/
theorem Request.buildTcpPacket (r : Request) :
    SkiptableBench.buildTcpPacket r.cmdType r.seqId r.data = r.packet.bytes := by
  have hlen : (UInt32.ofNat r.data.length).toNat = r.data.length := by
    have hle := r.data_le
    rw [UInt32.toNat_ofNat']
    omega
  rw [SkiptableBench.buildTcpPacket, clientPacket_eq length_bigEndian]
  simp only [RequestPacket.bytes, packet, Request.packet, bigEndian, hlen]
  rfl

section Steps

variable {ι S : Type*} [Comparisons S] (P : Scores S) (cfg : ServerConfig)
  (W : Store S → ℕ × Host → Prop)

/-- The command of a request is answered with this text, by a system that keeps to `W`. -/
def Handles (s : Store S) (r : Request) (text : List UInt8) (s' : Store S) : Prop :=
  ∃ sys, W s sys ∧ r.packet.result P cfg sys s = some (text, s')

/-- The store behind a request, when its command comes back. -/
def Request.behind (r : Request) (sys : ℕ × Host) (s : Store S) : Store S :=
  ((r.packet.result P cfg sys s).map Prod.snd).getD s

variable {P cfg W} in
theorem Handles.of_answer {s : Store S} {r : Request} {text : List UInt8} (sys : ℕ × Host)
    (hsys : W s sys) (h : (r.packet.result P cfg sys s).map Prod.fst = some text) :
    Handles P cfg W s r text (r.behind P cfg sys s) := by
  obtain ⟨⟨t, s'⟩, hres, rfl⟩ := Option.map_eq_some_iff.mp h
  refine ⟨sys, hsys, ?_⟩
  rw [Request.behind, hres]
  rfl

/-- The handler's frame for a call, which is the string that the client gets. -/
def servedFrame (c : Served ι Request (List UInt8)) : List UInt8 :=
  c.request.packet.frame 0 c.answer

/-- One step of a connection, where the system keeps to `W`. -/
def Connection.Steps (i : ι) (x : Store S × Connection S) (e : Network.Event ι)
    (x' : Store S × Connection S) : Prop :=
  e.conn = i ∧ x.2.step P cfg x.1 e = some x' ∧ ∀ sys, e.sys = some sys → W x.1 sys

variable {P cfg W} in
/-- Most steps ask nothing of the system. -/
theorem Connection.Steps.silent {i : ι} {x x' : Store S × Connection S} {e : Network.Event ι}
    (hconn : e.conn = i) (hsys : e.sys = none) (hstep : x.2.step P cfg x.1 e = some x') :
    Connection.Steps P cfg W i x e x' := by
  refine ⟨hconn, hstep, fun sys h => ?_⟩
  rw [hsys] at h
  cases h

variable [DecidableEq ι]

/-- One step of the network, where the system keeps to `W`. -/
def Network.Steps (σ : Network ι S) (e : Network.Event ι) (σ' : Network ι S) : Prop :=
  σ.step P cfg e = some σ' ∧ ∀ sys, e.sys = some sys → W σ.store sys

variable {P cfg W} {i : ι} {σ : Network ι S} {x : Store S × Connection S}
  {es : List (Network.Event ι)}

/-- What one connection goes through by itself is a run of the network. -/
theorem Network.alone (h : Drives (Connection.Steps P cfg W i) (σ.store, σ.conns i) es x) :
    Drives (Network.Steps P cfg W) σ es ⟨x.1, Function.update σ.conns i x.2⟩ := by
  generalize hstart : (σ.store, σ.conns i) = start at h
  induction h generalizing σ with
  | nil x =>
    subst hstart
    rw [Function.update_eq_self]
    exact .nil σ
  | @cons x x₁ x' e es he _ ih =>
    subst hstart
    obtain ⟨rfl, hstep, hallowed⟩ := he
    have hnet : σ.step P cfg e = some ⟨x₁.1, Function.update σ.conns e.conn x₁.2⟩ := by
      rw [Network.step, hstep]
      rfl
    have hrest := ih (σ := ⟨x₁.1, Function.update σ.conns e.conn x₁.2⟩)
      (Prod.ext rfl (Function.update_self ..))
    rw [Function.update_idem] at hrest
    exact .cons ⟨hnet, hallowed⟩ hrest

end Steps

section Exchange

variable {ι S : Type*} {s s' : Store S} {c : Connection S} {r : Request} {todo : List Request}
  {responses : List Response}

/-- The client is in front of a `Write`, and nothing is on its way. -/
structure Connection.Rests (c : Connection S) (todo : List Request) (responses : List Response) :
    Prop where
  client : c.client = ⟨todo, .idle, responses⟩
  up : c.up = []
  down : c.down = []
  reader : c.reader.Holds []
  stays : c.hungUp = false

variable [Comparisons S] (P : Scores S) (cfg : ServerConfig) (W : Store S → ℕ × Host → Prop)
  (i : ι) (s)

/-- The response is read byte by byte. -/
theorem Connection.reads {frame : List UInt8} (hpos : 0 < frame.length)
    (hsize : frame.length < 2 ^ 32) (h : c.client.phase.Awaits frame c.down) :
    ∃ es, Drives (Connection.Steps P cfg W i) (s, c) es
      (s, { c with
        client := ⟨c.client.todo, .idle, c.client.responses ++ [.ok frame]⟩
        down := [] }) := by
  obtain ⟨client, up, down, reader, hungUp⟩ := c
  induction down generalizing client with
  | nil =>
    obtain ⟨-, b, tail, hcons⟩ := h.exists_byte
    cases hcons
  | cons b down ih =>
    obtain ⟨client', hread⟩ := Option.isSome_iff_exists.mp (client.read_isSome h.exists_byte.1)
    have hfirst : client.phase.Awaits frame ([b] ++ down) := h
    obtain ⟨htodo, hmore⟩ := client.read_awaits hpos hsize hfirst (List.cons_ne_nil b []) hread
    have hstep : Connection.Steps P cfg W i (s, ⟨client, up, b :: down, reader, hungUp⟩)
        (.read i [b]) (s, ⟨client', up, down, reader, hungUp⟩) := by
      refine .silent rfl rfl ?_
      rw [Connection.step, takeChunk_cons, Option.bind_some, hread]
      rfl
    obtain ⟨hawaits, hsame⟩ | ⟨rfl, hphase, hgot⟩ := hmore
    · obtain ⟨es, hes⟩ := ih client' hawaits
      rw [htodo, hsame] at hes
      exact ⟨_, .cons hstep hes⟩
    · obtain ⟨todo', phase', responses'⟩ := client'
      dsimp only at htodo hphase hgot
      subst htodo hphase hgot
      exact ⟨_, .cons hstep (.nil _)⟩

/-- The packet of the next request stands in the buffer of the reader. -/
theorem Connection.Rests.asks (h : c.Rests (r :: todo) responses) : ∃ reader',
    reader'.Holds r.packet.bytes ∧ Drives (Connection.Steps P cfg W i) (s, c)
      [.write i, .recv i r.packet.bytes] (s, ⟨⟨todo, .header [], responses⟩, [], [], reader', false⟩) := by
  obtain ⟨client, up, down, reader, hungUp⟩ := c
  have hreader : reader.Holds [] := h.reader
  obtain ⟨rfl, rfl, rfl, -, rfl⟩ := h
  have hne := r.packet.bytes_ne
  have hroom : ([] : List UInt8).length + r.packet.bytes.length ≤ readerBufferSize := by
    have hpay := r.packet.payload_le
    rw [r.packet.length_bytes, tcpHeaderSize, readerBufferSize, List.length_nil]
    omega
  obtain ⟨reader', hrecv, hholds, -⟩ := hreader.exists_recv P cfg hreader.waits_nil hne hroom
  let c₁ : Connection S := ⟨⟨todo, .header [], responses⟩, r.packet.bytes, [], reader, false⟩
  have hwrite : Connection.Steps P cfg W i
      (s, ⟨⟨r :: todo, .idle, responses⟩, [], [], reader, false⟩) (.write i) (s, c₁) := by
    refine .silent rfl rfl ?_
    rw [Connection.step, Client.write]
    dsimp only
    rw [Option.map_some, r.buildTcpPacket, List.nil_append]
  have hrecv : Connection.Steps P cfg W i (s, c₁) (.recv i r.packet.bytes)
      (s, ⟨⟨todo, .header [], responses⟩, [], [], reader', false⟩) := by
    refine .silent rfl rfl ?_
    rw [Connection.step, takeChunk_all hne, Option.bind_some, hrecv]
    rfl
  exact ⟨reader', hholds, .cons hwrite (.cons hrecv (.nil _))⟩

variable {P cfg W s} in
/-- A request whose command comes back gets its response. -/
theorem Connection.Rests.exchange (h : c.Rests (r :: todo) responses) {text : List UInt8}
    (hr : Handles P cfg W s r text s') : ∃ es c',
    Drives (Connection.Steps P cfg W i) (s, c) es (s', c') ∧
      c'.Rests todo (responses ++ [.ok (r.packet.frame 0 text)]) := by
  obtain ⟨⟨n, w⟩, hallowed, hresult⟩ := hr
  obtain ⟨reader, hreader, hasks⟩ := h.asks s P cfg W i
  have hback : (r.packet.result P cfg (n, w) s).isSome := by rw [hresult]; rfl
  have hholds : reader.Holds (r.packet.bytes ++ []) := by rwa [List.append_nil]
  obtain ⟨reader', hround⟩ := Option.isSome_iff_exists.mp (hholds.readerStep_isSome hback)
  obtain ⟨answer, hanswer, hempty, hsent, hstore⟩ := hreader.readerStep_alone hround
  obtain rfl := Option.some.inj (hresult.symm.trans hanswer)
  let frame : List UInt8 := r.packet.frame 0 text
  have hlen : text.length < resultSize := runCommand_length hresult
  have hframe : frame.length = tcpHeaderSize + text.length := r.packet.length_frame 0 text
  rw [resultSize] at hlen
  rw [tcpHeaderSize] at hframe
  let c₁ : Connection S := ⟨⟨todo, .header [], responses⟩, [],
    r.packet.frame r.packet.flags frame, reader', false⟩
  have hserved : Connection.Steps P cfg W i
      (s, ⟨⟨todo, .header [], responses⟩, [], [], reader, false⟩) (.round i n w) (s', c₁) := by
    refine ⟨rfl, ?_, fun sys hsys => Option.some.inj hsys ▸ hallowed⟩
    rw [Connection.step, hround, Option.map_some, hsent, List.drop_left, hstore]
    simp [c₁, frame]
  have hawaits : c₁.client.phase.Awaits frame c₁.down := ⟨by decide, r.packet, rfl⟩
  obtain ⟨es, hreads⟩ := Connection.reads s' P cfg W i (by omega) (by omega) hawaits
  exact ⟨_, _, (hasks.append (.cons hserved (.nil _))).append hreads, rfl, rfl, rfl, hempty, rfl⟩

/-- A client with nothing left to ask closes, and its reader returns. -/
theorem Connection.Rests.leaves (h : c.Rests [] responses) : ∃ c' : Connection S,
    Drives (Connection.Steps P cfg W i) (s, c) [.close i, .recv i []] (s, c') ∧
      c'.client = ⟨[], .idle, responses⟩ ∧ c'.up = [] ∧ c'.down = [] ∧ c'.reader.bufferLen = 0 ∧
      c'.reader.closed = true ∧ c'.hungUp = true := by
  obtain ⟨client, up, down, reader, hungUp⟩ := c
  have hreader : reader.Holds [] := h.reader
  obtain ⟨rfl, rfl, rfl, -, rfl⟩ := h
  have hrecv : readerStep P cfg reader (.recv []) = some { reader with closed := true } := by
    simp [readerStep, hreader.opened, hreader.waits_nil]
  let c₁ : Connection S := ⟨⟨[], .idle, responses⟩, [], [], reader, true⟩
  have hclose : Connection.Steps P cfg W i (s, ⟨⟨[], .idle, responses⟩, [], [], reader, false⟩)
      (.close i) (s, c₁) := .silent rfl rfl rfl
  have hrecv : Connection.Steps P cfg W i (s, c₁) (.recv i [])
      (s, { c₁ with reader := { reader with closed := true } }) := by
    refine .silent rfl rfl ?_
    simp [c₁, Connection.step, takeChunk, hrecv]
  exact ⟨_, .cons hclose (.cons hrecv (.nil _)), rfl, rfl, rfl, hreader.len, rfl, rfl⟩

end Exchange

section Histories

variable {ι S : Type*} [Comparisons S] [DecidableEq ι] {P : Scores S} {cfg : ServerConfig}
  {W : Store S → ℕ × Host → Prop} {s₀ s' : Store S} {programs : ι → List Request}
  {h : List (Served ι Request (List UInt8))}

variable (programs) in
/-- Whatever order of requests the engines can answer is the history of a run. -/
theorem Network.realizes (hrun : Replays (Handles P cfg W) s₀ h s')
    (hprograms : ∀ i, (callsOf i h).map Served.request <+: programs i) : ∃ es σ,
    Drives (Network.Steps P cfg W) (.start s₀ programs) es σ ∧ σ.store = s' ∧
      ∀ i, (σ.conns i).Rests ((programs i).drop (callsOf i h).length)
        ((callsOf i h).map fun c => .ok (servedFrame c)) := by
  induction h using List.reverseRecOn generalizing s' with
  | nil =>
    cases hrun
    exact ⟨[], _, .nil _, rfl, fun i => ⟨rfl, rfl, rfl, start_holds s₀, rfl⟩⟩
  | append_singleton h c ih =>
    obtain ⟨s₁, hpre, hlast⟩ := Replays.split hrun
    obtain ⟨s₂, hc, hlast⟩ := hlast.first
    cases hlast
    have hown : callsOf c.client (h ++ [c]) = callsOf c.client h ++ [c] := callsOf_append_self
    have hother : ∀ i, i ≠ c.client → callsOf i (h ++ [c]) = callsOf i h :=
      fun i hi => callsOf_append_of_ne hi
    obtain ⟨es, σ, hes, rfl, hrests⟩ := ih hpre fun i => by
      by_cases hi : i = c.client
      · have hlong := hprograms i
        rw [hi, hown, List.map_append] at hlong
        exact hi ▸ (List.prefix_append _ _).trans hlong
      · exact hother i hi ▸ hprograms i
    have hnext : (programs c.client).drop (callsOf c.client h).length =
        c.request :: (programs c.client).drop ((callsOf c.client h).length + 1) := by
      obtain ⟨rest, hrest⟩ := hprograms c.client
      rw [hown, List.map_append, List.append_assoc] at hrest
      rw [← hrest, List.drop_left' (List.length_map _), List.drop_append, List.length_map,
        List.drop_eq_nil_of_le (by rw [List.length_map]; omega), Nat.add_sub_cancel_left]
      rfl
    have hrest := hrests c.client
    rw [hnext] at hrest
    obtain ⟨es', c', hes', hrests'⟩ := hrest.exchange c.client hc
    refine ⟨_, _, hes.append (Network.alone hes'), rfl, fun i => ?_⟩
    dsimp only
    by_cases hi : i = c.client
    · subst hi
      rw [Function.update_self, hown, List.length_append, List.map_append]
      exact hrests'
    · rw [Function.update_of_ne hi, hother i hi]
      exact hrests i

end Histories
end KvStore
