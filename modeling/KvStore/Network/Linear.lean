import KvStore.Network.Exchange

/-! The server as one object that its clients share. Whatever the order in which bytes are sent,
received and read on the connections, the requests take effect one after the other, each between
its `Write` and the last `Read` of its response, and every response is the one to its request. -/
namespace KvStore
open History

section Stages

variable {S : Type*}

/-- How far the requests of a connection are. `unserved` are those that the server has not handled,
`frames` its answers to the others. -/
inductive Connection.Stage (c : Connection S) (unserved : List Request)
    (frames : List (List UInt8)) : Prop
  | idle (phase : c.client.phase = .idle) (todo : c.client.todo = unserved) (up : c.up = [])
    (down : c.down = []) (reader : c.reader.Holds []) (stays : c.hungUp = false)
    (responses : c.client.responses = frames.map .ok)
  | asked (r : Request) (received : List UInt8) (phase : c.client.phase = .header [])
    (todo : r :: c.client.todo = unserved) (up : received ++ c.up = r.packet.bytes)
    (down : c.down = []) (reader : c.reader.Holds received) (stays : c.hungUp = false)
    (responses : c.client.responses = frames.map .ok)
  | answered (frame : List UInt8) (earlier : List (List UInt8)) (todo : c.client.todo = unserved)
    (up : c.up = []) (down : c.client.phase.Awaits frame c.down) (pos : 0 < frame.length)
    (size : frame.length < 2 ^ 32) (reader : c.reader.Holds []) (stays : c.hungUp = false)
    (frames_eq : frames = earlier ++ [frame]) (responses : c.client.responses = earlier.map .ok)
  | left (phase : c.client.phase = .idle) (todo : c.client.todo = []) (none : unserved = [])
    (up : c.up = []) (down : c.down = []) (reader : c.reader.closed = true ∨ c.reader.Holds [])
    (leaves : c.hungUp = true) (responses : c.client.responses = frames.map .ok)

variable [Comparisons S] {P : Scores S} {cfg : ServerConfig} {s s' : Store S}
  {c c' : Connection S} {unserved : List Request} {frames : List (List UInt8)}

/-- What an event has done to the request of its connection: nothing that the engines know of, or
it was handled. -/
inductive Progress (P : Scores S) (cfg : ServerConfig) (s s' : Store S) (c' : Connection S)
    (unserved : List Request) (frames : List (List UInt8)) {ι : Type*} (e : Network.Event ι) : Prop
  | moved (event : e.handled = []) (store : s' = s) (stage : c'.Stage unserved frames)
  | served (r : Request) (later : List Request) (n : ℕ) (w : Host) (text : List UInt8)
    (event : e.sys = some (n, w)) (conn : e.handled = [e.conn]) (first : unserved = r :: later)
    (result : r.packet.result P cfg (n, w) s = some (text, s'))
    (stage : c'.Stage later (frames ++ [r.packet.frame 0 text]))

variable {ι : Type*} {i : ι} {chunk : List UInt8}

theorem Connection.Stage.write (h : c.Stage unserved frames)
    (hstep : c.step P cfg s (.write i) = some (s', c')) :
    s' = s ∧ c'.Stage unserved frames := by
  obtain ⟨⟨packet, client⟩, hwrite, he⟩ := Option.map_eq_some_iff.mp hstep
  cases he
  rw [Client.write] at hwrite
  cases h with
  | idle phase todo up down reader stays responses =>
    rw [phase, todo] at hwrite
    cases unserved with
    | nil => cases hwrite
    | cons r unserved =>
      cases hwrite
      refine ⟨rfl, .asked r [] rfl rfl ?_ down reader stays responses⟩
      rw [up, r.buildTcpPacket]
      rfl
  | asked r received phase =>
    rw [phase] at hwrite
    cases hwrite
  | answered frame earlier todo up down =>
    cases hphase : c.client.phase with
    | idle =>
      rw [hphase] at down
      exact down.elim
    | header headerBuf =>
      rw [hphase] at hwrite
      cases hwrite
    | data dataLen dataBuf =>
      rw [hphase] at hwrite
      cases hwrite
  | left phase todo =>
    rw [phase, todo] at hwrite
    cases hwrite

theorem Client.read_idle {client client' : Client} (h : client.phase = .idle) :
    client.read chunk ≠ some client' := by
  rw [Client.read, h]
  by_cases hwants : Phase.idle.wants < chunk.length
  · rw [if_pos hwants]
    exact nofun
  · rw [if_neg hwants]
    exact nofun

omit [Comparisons S] in
/-- The stream does not end while a client reads. -/
theorem Connection.Stage.chunk_ne_nil (h : c.Stage unserved frames) {rest : List UInt8}
    {client : Client} (hchunk : takeChunk c.down chunk c.reader.closed = some rest)
    (hread : c.client.read chunk = some client) : chunk ≠ [] := by
  obtain ⟨-, hended⟩ := takeChunk_eq_some hchunk
  rintro rfl
  obtain ⟨hdown, hclosed⟩ := hended rfl
  cases h with
  | idle phase => exact Client.read_idle phase hread
  | asked r received phase todo up down reader =>
    rw [reader.opened] at hclosed
    cases hclosed
  | answered frame earlier todo up down =>
    obtain ⟨-, b, tail, hcons⟩ := down.exists_byte
    rw [hdown] at hcons
    cases hcons
  | left phase => exact Client.read_idle phase hread

theorem Connection.Stage.read (h : c.Stage unserved frames)
    (hstep : c.step P cfg s (.read i chunk) = some (s', c')) :
    s' = s ∧ c'.Stage unserved frames := by
  obtain ⟨rest, hchunk, hstep⟩ := Option.bind_eq_some_iff.mp hstep
  obtain ⟨client, hread, he⟩ := Option.map_eq_some_iff.mp hstep
  cases he
  have hne := h.chunk_ne_nil hchunk hread
  obtain ⟨hdown, -⟩ := takeChunk_eq_some hchunk
  cases h with
  | idle phase => exact absurd hread (Client.read_idle phase)
  | asked r received phase todo up down =>
    rw [down] at hdown
    exact absurd (List.append_eq_nil_iff.mp hdown.symm).1 hne
  | answered frame earlier todo up down pos size reader stays frames_eq responses =>
    rw [hdown] at down
    obtain ⟨htodo, ⟨hawaits, hsame⟩ | ⟨rfl, hphase, hgot⟩⟩ :=
      c.client.read_awaits pos size down hne hread
    · exact ⟨rfl, .answered frame earlier (htodo.trans todo) up hawaits pos size reader stays
        frames_eq (hsame.trans responses)⟩
    · refine ⟨rfl, .idle hphase (htodo.trans todo) up rfl reader stays ?_⟩
      rw [hgot, responses, frames_eq, List.map_append]
      rfl
  | left phase => exact absurd hread (Client.read_idle phase)

theorem Connection.Stage.close (h : c.Stage unserved frames)
    (hstep : c.step P cfg s (.close i) = some (s', c')) :
    s' = s ∧ c'.Stage unserved frames := by
  rw [Connection.step] at hstep
  cases h with
  | idle phase todo up down reader stays responses =>
    rw [phase] at hstep
    cases hnil : c.client.todo with
    | nil =>
      rw [hnil, stays] at hstep
      cases hstep
      exact ⟨rfl, .left phase hnil (todo.symm.trans hnil) up down (.inr reader) rfl responses⟩
    | cons r todo =>
      rw [hnil] at hstep
      cases hstep
  | asked r received phase =>
    rw [phase] at hstep
    cases hstep
  | answered frame earlier todo up down =>
    cases hphase : c.client.phase with
    | idle =>
      rw [hphase] at down
      exact down.elim
    | header headerBuf =>
      rw [hphase] at hstep
      cases hstep
    | data dataLen dataBuf =>
      rw [hphase] at hstep
      cases hstep
  | left phase todo none up down reader leaves =>
    rw [phase, todo, leaves] at hstep
    cases hstep

theorem Connection.Stage.recv (h : c.Stage unserved frames)
    (hstep : c.step P cfg s (.recv i chunk) = some (s', c')) :
    s' = s ∧ c'.Stage unserved frames := by
  obtain ⟨rest, hchunk, hstep⟩ := Option.bind_eq_some_iff.mp hstep
  obtain ⟨reader', hrecv, he⟩ := Option.map_eq_some_iff.mp hstep
  cases he
  obtain ⟨hup, hended⟩ := takeChunk_eq_some hchunk
  cases h with
  | idle phase todo up down reader stays responses =>
    rw [up] at hup
    obtain ⟨rfl, -⟩ := List.append_eq_nil_iff.mp hup.symm
    rw [stays] at hended
    cases (hended rfl).2
  | asked r received phase todo up down reader stays responses =>
    have hne : chunk ≠ [] := by
      rintro rfl
      rw [stays] at hended
      cases (hended rfl).2
    refine ⟨rfl, .asked r (received ++ chunk) phase todo ?_ down
      (reader.readerStep_recv hne hrecv) stays responses⟩
    rw [List.append_assoc, ← hup, up]
  | answered frame earlier todo up down pos size reader stays =>
    rw [up] at hup
    obtain ⟨rfl, -⟩ := List.append_eq_nil_iff.mp hup.symm
    rw [stays] at hended
    cases (hended rfl).2
  | left phase todo none up down reader leaves responses =>
    rw [up] at hup
    obtain ⟨rfl, rfl⟩ := List.append_eq_nil_iff.mp hup.symm
    rw [readerStep] at hrecv
    split_ifs at hrecv with hstop hnil
    · cases hrecv
      exact ⟨rfl, .left phase todo none rfl down (.inl rfl) leaves responses⟩
    · exact absurd rfl hnil

theorem Reader.Holds.no_round {r : Reader S} (h : r.closed = true ∨ r.Holds []) {n : ℕ} {w : Host} :
    readerStep P cfg r (.round s n w) = none := by
  rw [readerStep, if_pos]
  obtain hclosed | hholds := h
  · exact .inl hclosed
  · exact .inr hholds.waits_nil

/-- The loop over packets goes on only when a whole packet has arrived. -/
theorem Connection.Stage.of_round (h : c.Stage unserved frames) {n : ℕ} {w : Host} {r' : Reader S}
    (hround : readerStep P cfg c.reader (.round s n w) = some r') : ∃ r,
    c.reader.Holds r.packet.bytes ∧ r :: c.client.todo = unserved ∧ c.client.phase = .header [] ∧
    c.up = [] ∧ c.down = [] ∧ c.hungUp = false ∧ c.client.responses = frames.map .ok := by
  cases h with
  | idle phase todo up down reader =>
    rw [Reader.Holds.no_round (.inr reader)] at hround
    cases hround
  | asked r received phase todo up down reader stays responses =>
    by_cases hup : c.up = []
    · rw [hup, List.append_nil] at up
      exact ⟨r, up ▸ reader, todo, phase, hup, down, stays, responses⟩
    · rw [readerStep, if_pos (.inr (reader.waits up hup))] at hround
      cases hround
  | answered frame earlier todo up down pos size reader =>
    rw [Reader.Holds.no_round (.inr reader)] at hround
    cases hround
  | left phase todo none up down reader =>
    rw [Reader.Holds.no_round reader] at hround
    cases hround

theorem Connection.Stage.round (h : c.Stage unserved frames) {n : ℕ} {w : Host}
    (hstep : c.step P cfg s (.round i n w) = some (s', c')) :
    Progress P cfg s s' c' unserved frames (Network.Event.round i n w) := by
  obtain ⟨reader', hround, he⟩ := Option.map_eq_some_iff.mp hstep
  cases he
  obtain ⟨r, reader, todo, phase, up, down, stays, responses⟩ := h.of_round hround
  obtain ⟨⟨text, s₁⟩, hresult, hholds, hsent, hstore⟩ := reader.readerStep_alone hround
  have hlen : text.length < resultSize := runCommand_length hresult
  have hframe := r.packet.length_frame 0 text
  rw [resultSize] at hlen
  rw [tcpHeaderSize] at hframe
  refine .served r c.client.todo n w text rfl rfl todo.symm ?_ ?_
  · rw [hresult, hstore]
  · refine .answered (r.packet.frame 0 text) frames rfl up ?_ (by omega) (by omega) hholds
      stays rfl responses
    rw [phase, hsent, List.drop_left, down]
    refine ⟨by decide, r.packet, ?_⟩
    simp

/-- An event leaves its connection in a stage, and changes the engines with the command of its next
request only. -/
theorem Connection.Stage.step (h : c.Stage unserved frames) {e : Network.Event ι}
    (hstep : c.step P cfg s e = some (s', c')) :
    Progress P cfg s s' c' unserved frames e := by
  cases e with
  | write i =>
    obtain ⟨hs, hstage⟩ := h.write hstep
    exact .moved rfl hs hstage
  | read i chunk =>
    obtain ⟨hs, hstage⟩ := h.read hstep
    exact .moved rfl hs hstage
  | close i =>
    obtain ⟨hs, hstage⟩ := h.close hstep
    exact .moved rfl hs hstage
  | recv i chunk =>
    obtain ⟨hs, hstage⟩ := h.recv hstep
    exact .moved rfl hs hstage
  | round i n w => exact h.round hstep

end Stages

section Histories

variable {ι S : Type*} [Comparisons S] (P : Scores S) (cfg : ServerConfig)
  (W : Store S → ℕ × Host → Prop)

variable [DecidableEq ι]

/-- The history explains the engines and, on every connection, what was served. -/
structure Network.Explains (s₀ : Store S) (programs : ι → List Request) (σ : Network ι S)
    (h : List (Served ι Request (List UInt8))) : Prop where
  replays : Replays (Handles P cfg W) s₀ h σ.store
  stages : ∀ i, ∃ unserved, (callsOf i h).map Served.request ++ unserved = programs i ∧
    (σ.conns i).Stage unserved ((callsOf i h).map servedFrame)

/-- What the clients see of a history. Each request that was served is the next one of its client
and was written, each response is the one to its request, and a client has at most one request
without a response. -/
structure Network.Linear (s₀ : Store S) (programs : ι → List Request) (σ : Network ι S)
    (h : List (Served ι Request (List UInt8))) : Prop where
  replays : Replays (Handles P cfg W) s₀ h σ.store
  order : ∀ i, ∃ unserved, (callsOf i h).map Served.request ++ unserved = programs i ∧
    (σ.conns i).client.todo <:+ unserved
  responses : ∀ i, (σ.conns i).client.responses <+:
    (callsOf i h).map fun c => Response.ok (servedFrame c)
  pending : ∀ i, (programs i).length ≤
    (σ.conns i).client.responses.length + (σ.conns i).client.todo.length + 1

variable {P cfg W} {s₀ : Store S} {programs : ι → List Request} {σ σ' σ'' : Network ι S}
  {h : List (Served ι Request (List UInt8))} {es : List (Network.Event ι)}

omit [Comparisons S] in
/-- The stage of a connection is what its client sees. -/
theorem Connection.Stage.client {c : Connection S} {unserved : List Request}
    {frames : List (List UInt8)} (hstage : c.Stage unserved frames) :
    c.client.todo <:+ unserved ∧ c.client.responses <+: frames.map .ok ∧
      frames.length + unserved.length ≤
        c.client.responses.length + c.client.todo.length + 1 := by
  cases hstage with
  | idle phase todo up down reader stays responses =>
    rw [todo, responses, List.length_map]
    exact ⟨List.suffix_rfl, List.prefix_rfl, Nat.le_succ _⟩
  | asked r received phase todo up down reader stays responses =>
    rw [← todo, responses, List.length_map]
    exact ⟨List.suffix_cons r _, List.prefix_rfl, le_rfl⟩
  | answered frame earlier todo up down pos size reader stays frames_eq responses =>
    rw [todo, responses, frames_eq, List.map_append, List.length_append, List.length_map]
    refine ⟨List.suffix_rfl, List.prefix_append _ _, ?_⟩
    rw [List.length_singleton]
    omega
  | left phase todo none up down reader leaves responses =>
    rw [todo, none, responses, List.length_map]
    exact ⟨List.suffix_rfl, List.prefix_rfl, Nat.le_succ _⟩

theorem Network.Explains.linear (hσ : σ.Explains P cfg W s₀ programs h) :
    σ.Linear P cfg W s₀ programs h where
  replays := hσ.replays
  order := by
    intro i
    obtain ⟨unserved, hprogram, hstage⟩ := hσ.stages i
    exact ⟨unserved, hprogram, hstage.client.1⟩
  responses := by
    intro i
    obtain ⟨unserved, -, hstage⟩ := hσ.stages i
    have hprefix := hstage.client.2.1
    rwa [List.map_map] at hprefix
  pending := by
    intro i
    obtain ⟨unserved, hprogram, hstage⟩ := hσ.stages i
    have hlen := hstage.client.2.2
    rw [← hprogram, List.length_append, List.length_map]
    rwa [List.length_map] at hlen

/-- Only requests of a client's program are served for him. -/
theorem Network.Linear.mem_program (hσ : σ.Linear P cfg W s₀ programs h)
    {c : Served ι Request (List UInt8)} (hc : c ∈ h) : c.request ∈ programs c.client := by
  obtain ⟨unserved, hprogram, -⟩ := hσ.order c.client
  rw [← hprogram]
  apply List.mem_append_left
  apply List.mem_map_of_mem
  exact List.mem_filter.mpr ⟨hc, decide_eq_true rfl⟩

theorem Network.Explains.start (s : Store S) (programs : ι → List Request) :
    (Network.start s programs).Explains P cfg W s programs [] where
  replays := .nil
  stages := fun i => ⟨programs i, rfl, .idle rfl rfl rfl rfl (start_holds s) rfl rfl⟩

/-- A step extends the history by the request that it serves, if it serves one. -/
theorem Network.Explains.step {e : Network.Event ι} (hσ : σ.Explains P cfg W s₀ programs h)
    (hstep : σ.Steps P cfg W e σ') : ∃ c : List (Served ι Request (List UInt8)),
      c.map Served.client = e.handled ∧ σ'.Explains P cfg W s₀ programs (h ++ c) := by
  obtain ⟨hstep, hallowed⟩ := hstep
  obtain ⟨⟨s', c'⟩, hconn, he⟩ := Option.map_eq_some_iff.mp hstep
  cases he
  obtain ⟨unserved, hprogram, hstage⟩ := hσ.stages e.conn
  obtain ⟨hsilent, rfl, hstage'⟩ | ⟨r, later, n, w, text, hevent, hround, rfl, hresult, hstage'⟩ :=
    hstage.step hconn
  · refine ⟨[], hsilent.symm, ?_⟩
    rw [List.append_nil]
    refine ⟨hσ.replays, ?_⟩
    intro i
    by_cases hi : i = e.conn
    · subst hi
      refine ⟨unserved, hprogram, ?_⟩
      dsimp only
      rwa [Function.update_self]
    · dsimp only
      rw [Function.update_of_ne hi]
      exact hσ.stages i
  · let call : Served ι Request (List UInt8) := ⟨e.conn, r, text⟩
    have hown : callsOf e.conn (h ++ [call]) = callsOf e.conn h ++ [call] :=
      callsOf_append_self (c := call)
    refine ⟨[call], hround.symm, ?_, ?_⟩
    · exact hσ.replays.call ⟨(n, w), hallowed (n, w) hevent, hresult⟩
    · intro i
      by_cases hi : i = e.conn
      · subst hi
        refine ⟨later, ?_, ?_⟩
        · rw [hown, List.map_append, List.append_assoc]
          exact hprogram
        · dsimp only
          rw [Function.update_self, hown, List.map_append]
          exact hstage'
      · have hother : callsOf i (h ++ [call]) = callsOf i h := callsOf_append_of_ne hi
        dsimp only
        rw [Function.update_of_ne hi, hother]
        exact hσ.stages i

/-- One history for a whole run: its calls are the rounds, and those up to a state explain it. -/
theorem Network.Explains.all (hσ : σ.Explains P cfg W s₀ programs h)
    (hrun : Drives (Network.Steps P cfg W) σ es σ') :
    ∃ c : List (Served ι Request (List UInt8)),
      c.map Served.client = es.flatMap Network.Event.handled ∧
      ∀ pre σ'', pre <+: es → Drives (Network.Steps P cfg W) σ pre σ'' →
        σ''.Explains P cfg W s₀ programs
          (h ++ c.take (pre.flatMap Network.Event.handled).length) := by
  have hdet : ∀ σ e σ₁ σ₂, Network.Steps P cfg W σ e σ₁ → Network.Steps P cfg W σ e σ₂ →
      (σ₁ : Network ι S) = σ₂ := fun σ e σ₁ σ₂ h₁ h₂ => Option.some.inj (h₁.1.symm.trans h₂.1)
  exact hrun.records (R := fun σ h => σ.Explains P cfg W s₀ programs h) hdet
    (fun _ _ _ _ hσ hstep => hσ.step hstep) hσ

theorem Network.Explains.run (hσ : σ.Explains P cfg W s₀ programs h)
    (hrun : Drives (Network.Steps P cfg W) σ es σ') :
    ∃ h', h <+: h' ∧ σ'.Explains P cfg W s₀ programs h' := by
  obtain ⟨c, -, hall⟩ := hσ.all hrun
  exact ⟨_, List.prefix_append h _, hall es σ' List.prefix_rfl hrun⟩

/-- An event is possible when its connection goes through it. -/
theorem Network.exists_step {e : Network.Event ι}
    (h : ((σ.conns e.conn).step P cfg σ.store e).isSome) : ∃ σ', σ.step P cfg e = some σ' := by
  apply Option.isSome_iff_exists.mp
  rwa [Network.step, Option.isSome_map]

/-- A whole packet can be handled when its command comes back. -/
theorem Reader.Holds.exists_round {p : RequestPacket} {i : ι} {n : ℕ} {w : Host}
    (hreader : (σ.conns i).reader.Holds p.bytes)
    (hc : (p.result P cfg (n, w) σ.store).isSome) :
    ∃ σ', σ.step P cfg (.round i n w) = some σ' := by
  apply Network.exists_step
  rw [← List.append_nil p.bytes] at hreader
  have hround := hreader.readerStep_isSome hc
  simpa [Connection.step, Network.Event.conn] using hround

/-- Any number of clients with any programs, whatever the order of events: a run has one history of
requests, in the order of the rounds that handle them, and what the clients see in any state of the run
is the history up to there. -/
theorem Network.linearizable (s₀ : Store S) (programs : ι → List Request)
    (hrun : Drives (Network.Steps P cfg W) (.start s₀ programs) es σ) :
    ∃ h : List (Served ι Request (List UInt8)),
      h.map Served.client = es.flatMap Network.Event.handled ∧
      ∀ pre σ', pre <+: es → Drives (Network.Steps P cfg W) (.start s₀ programs) pre σ' →
        σ'.Linear P cfg W s₀ programs (h.take (pre.flatMap Network.Event.handled).length) := by
  obtain ⟨h, hcalls, hall⟩ := (Explains.start s₀ programs).all hrun
  exact ⟨h, hcalls, fun pre σ' hpre hrun' => (hall pre σ' hpre hrun').linear⟩

end Histories

theorem existLetter_le : ([97] : List UInt8).length ≤ 1024 := by decide

/-- `EXIST a`, number one. -/
def existRequest : Request := ⟨5, 1, [97], existLetter_le⟩

def firstClient : Fin 2 := 0
def secondClient : Fin 2 := 1

/-- Two clients that ask for this. -/
def twoClients : Network (Fin 2) ℕ := .start freshStore fun _ => [existRequest]

/-- A server with these settings, and a system that promises nothing. -/
abbrev PlainSteps : Network (Fin 2) ℕ → Network.Event (Fin 2) → Network (Fin 2) ℕ → Prop :=
  Network.Steps plainScores ⟨checkedConfig, .empty⟩ fun _ _ => True

/-- What the answer is made of. -/
abbrev noExistResponse : Response := .ok (existRequest.packet.frame 0 noExistText)

/-- Both are served, the second one first. -/
theorem twoClients_served : ∃ es σ, Drives PlainSteps twoClients es σ ∧ σ.store = freshStore ∧
    ∀ i, (σ.conns i).Rests [] [noExistResponse] := by
  have hcall : Handles plainScores ⟨checkedConfig, .empty⟩ (fun _ _ => True) freshStore
      existRequest noExistText freshStore := ⟨(0, roomyHost), trivial, rfl⟩
  obtain ⟨es, σ, hes, hstore, hrests⟩ := Network.realizes (fun _ => [existRequest])
    (h := [⟨(1 : Fin 2), existRequest, noExistText⟩, ⟨0, existRequest, noExistText⟩])
    (.cons hcall (.cons hcall (.nil freshStore)))
    (Fin.forall_fin_two.mpr ⟨List.prefix_rfl, List.prefix_rfl⟩)
  refine ⟨es, σ, hes, hstore, Fin.forall_fin_two.mpr ⟨hrests 0, hrests 1⟩⟩

theorem Network.linearizable_two : ∃ es, ∃ σ : Network (Fin 2) ℕ,
    ∃ h : List (Served (Fin 2) Request (List UInt8)),
    Drives PlainSteps twoClients es σ ∧
    (∀ i, (σ.conns i).client.responses = [noExistResponse]) ∧
    h.map Served.client = es.flatMap Network.Event.handled ∧
    ∀ pre σ', pre <+: es → Drives PlainSteps twoClients pre σ' →
      σ'.Linear plainScores ⟨checkedConfig, .empty⟩ (fun _ _ => True) freshStore
        (fun _ => [existRequest]) (h.take (pre.flatMap Network.Event.handled).length) := by
  obtain ⟨es, σ, hrun, -, hrests⟩ := twoClients_served
  obtain ⟨h, hcalls, hall⟩ := Network.linearizable freshStore (fun _ => [existRequest]) hrun
  exact ⟨es, σ, h, hrun, fun i => by rw [(hrests i).client], hcalls, hall⟩

end KvStore
