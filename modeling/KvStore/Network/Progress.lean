import KvStore.Network.Linear
import Mathlib.Algebra.BigOperators.Group.Finset.Basic
import Mathlib.Algebra.Order.BigOperators.Group.Finset

/-! Clients and server come to an end. Every event makes a weight less, and when nothing can happen
any more all responses are there, unless a command does not come back. -/
namespace KvStore
open History

/-- The longest message of the server: two headers and a text. -/
def longestMessage : ℕ := tcpHeaderSize + tcpHeaderSize + (resultSize - 1)

/-- The most that one request takes: a `Write`, a `recv` for each byte, a round of the loop, and a
`Read` for each byte of the response. -/
def Request.cost (r : Request) : ℕ := 1 + r.packet.bytes.length + 1 + longestMessage

/-- A bound on the events that a connection can still go through. -/
def Connection.weight {S : Type*} (c : Connection S) : ℕ :=
  (c.client.todo.map Request.cost).sum + c.up.length +
    (if c.up = [] ∧ c.reader.bufferLen = 0 then 0 else 1 + longestMessage) + c.down.length +
    (if c.hungUp then 0 else 1) + if c.reader.closed then 0 else 1

section Weights

variable {S : Type*} [Comparisons S] {P : Scores S} {cfg : ServerConfig} {s s' : Store S}
  {c c' : Connection S} {unserved : List Request} {frames : List (List UInt8)} {ι : Type*} {i : ι}
  {chunk : List UInt8}

theorem Connection.write_weight (hstep : c.step P cfg s (.write i) = some (s', c')) :
    c'.weight < c.weight := by
  obtain ⟨⟨packet, client⟩, hwrite, he⟩ := Option.map_eq_some_iff.mp hstep
  cases he
  rw [Client.write] at hwrite
  split at hwrite
  · rename_i r todo hphase htodo
    cases hwrite
    have hpacket : (SkiptableBench.buildTcpPacket r.cmdType r.seqId r.data).length =
        r.packet.bytes.length := congrArg List.length r.buildTcpPacket
    simp only [weight, htodo, List.map_cons, List.sum_cons, Request.cost, List.length_append,
      hpacket]
    split_ifs
    all_goals omega
  · cases hwrite

theorem Client.read_todo {client client' : Client} (h : client.read chunk = some client') :
    client'.todo = client.todo := by
  unfold Client.read at h
  by_cases hwants : client.phase.wants < chunk.length
  · rw [if_pos hwants] at h
    cases h
  rw [if_neg hwants] at h
  split at h
  · cases h
  · dsimp only at h
    split_ifs at h
    all_goals
      cases h
      rfl
  · dsimp only at h
    split_ifs at h
    all_goals
      cases h
      rfl

theorem Connection.Stage.read_weight (h : c.Stage unserved frames)
    (hstep : c.step P cfg s (.read i chunk) = some (s', c')) : c'.weight < c.weight := by
  obtain ⟨rest, hchunk, hstep⟩ := Option.bind_eq_some_iff.mp hstep
  obtain ⟨client, hread, he⟩ := Option.map_eq_some_iff.mp hstep
  cases he
  have hpos := List.length_pos_iff.mpr (h.chunk_ne_nil hchunk hread)
  obtain ⟨hdown, -⟩ := takeChunk_eq_some hchunk
  simp only [weight, Client.read_todo hread, hdown, List.length_append]
  omega

theorem Connection.close_weight (hstep : c.step P cfg s (.close i) = some (s', c')) :
    c'.weight < c.weight := by
  rw [step] at hstep
  split at hstep
  · split_ifs at hstep with hopen
    cases hstep
    simp only [weight]
    rw [if_neg hopen, if_pos trivial]
    omega
  · cases hstep

theorem Connection.recv_weight (hstep : c.step P cfg s (.recv i chunk) = some (s', c')) :
    c'.weight < c.weight := by
  obtain ⟨rest, hchunk, hstep⟩ := Option.bind_eq_some_iff.mp hstep
  obtain ⟨reader', hrecv, he⟩ := Option.map_eq_some_iff.mp hstep
  cases he
  obtain ⟨hup, hended⟩ := takeChunk_eq_some hchunk
  rw [readerStep] at hrecv
  split_ifs at hrecv with hstop hnil
  · -- the end of the stream
    cases hrecv
    have hopen : c.reader.closed = false := Bool.eq_false_iff.mpr fun hclosed => hstop (.inl hclosed)
    obtain rfl : rest = [] := by
      rw [(hended hnil).1, hnil] at hup
      exact hup.symm
    simp only [weight, (hended hnil).1, hopen]
    rw [if_pos trivial, if_neg Bool.false_ne_true]
    omega
  · cases hrecv
    have hpos := List.length_pos_iff.mpr hnil
    have hlen := congrArg List.length hup
    have hfull : ¬ (c.up = [] ∧ c.reader.bufferLen = 0) := by
      rintro ⟨hempty, -⟩
      rw [hempty, List.length_nil, List.length_append] at hlen
      omega
    have hone : (if rest = [] ∧ c.reader.bufferLen + chunk.length = 0 then 0
        else 1 + longestMessage) ≤ 1 + longestMessage := by
      split_ifs
      · exact Nat.zero_le _
      · exact le_rfl
    rw [List.length_append] at hlen
    simp only [weight]
    rw [if_neg hfull]
    omega

theorem Connection.Stage.round_weight (h : c.Stage unserved frames) {n : ℕ} {w : Host}
    (hstep : c.step P cfg s (.round i n w) = some (s', c')) : c'.weight < c.weight := by
  obtain ⟨reader', hround, he⟩ := Option.map_eq_some_iff.mp hstep
  cases he
  obtain ⟨r, reader, -, -, up, down, -, -⟩ := h.of_round hround
  obtain ⟨⟨text, s₁⟩, hresult, hholds, hsent, -⟩ := reader.readerStep_alone hround
  have hlen : text.length < resultSize := runCommand_length hresult
  have hmessage : (r.packet.frame r.packet.flags (r.packet.frame 0 text)).length ≤
      longestMessage := by
    rw [RequestPacket.length_frame, RequestPacket.length_frame, longestMessage]
    omega
  have hbefore : ¬ (c.up = [] ∧ c.reader.bufferLen = 0) := by
    rintro ⟨-, hzero⟩
    rw [reader.len, r.packet.length_bytes, tcpHeaderSize] at hzero
    omega
  have hafter : c.up = [] ∧ reader'.bufferLen = 0 := ⟨up, hholds.len⟩
  have hopen : c.reader.closed = reader'.closed := reader.opened.trans hholds.opened.symm
  simp only [weight]
  rw [if_neg hbefore, if_pos hafter, hsent, List.drop_left, down, hopen]
  simp only [List.nil_append, List.flatten_singleton, List.length_nil]
  omega

theorem Connection.Stage.weight_lt (h : c.Stage unserved frames) {e : Network.Event ι}
    (hstep : c.step P cfg s e = some (s', c')) : c'.weight < c.weight := by
  cases e with
  | write i => exact c.write_weight hstep
  | read i chunk => exact h.read_weight hstep
  | close i => exact c.close_weight hstep
  | recv i chunk => exact c.recv_weight hstep
  | round i n w => exact h.round_weight hstep

end Weights

section Ends

variable {ι S : Type*} [Comparisons S] [DecidableEq ι] {P : Scores S} {cfg : ServerConfig}
  {W : Store S → ℕ × Host → Prop} {s₀ : Store S} {programs : ι → List Request}
  {σ σ' : Network ι S} {h : List (Served ι Request (List UInt8))} {es : List (Network.Event ι)}
  {c : Connection S} {unserved : List Request} {frames : List (List UInt8)}

/-- The bound for a whole network. -/
def Network.weight [Fintype ι] (σ : Network ι S) : ℕ := ∑ i, (σ.conns i).weight

theorem Network.weight_lt [Fintype ι] {e : Network.Event ι}
    (hσ : σ.Explains P cfg W s₀ programs h) (hstep : σ.Steps P cfg W e σ') :
    σ'.weight < σ.weight := by
  obtain ⟨⟨s', c'⟩, hconn, he⟩ := Option.map_eq_some_iff.mp hstep.1
  cases he
  obtain ⟨unserved, -, hstage⟩ := hσ.stages e.conn
  have hless := hstage.weight_lt hconn
  apply Finset.sum_lt_sum
  · intro i _
    dsimp only
    by_cases hi : i = e.conn
    · subst hi
      rw [Function.update_self]
      exact hless.le
    · rw [Function.update_of_ne hi]
  · refine ⟨e.conn, Finset.mem_univ _, ?_⟩
    dsimp only
    rw [Function.update_self]
    exact hless

/-- Connections that weigh nothing have come to their end. -/
theorem Network.Explains.at_end (hσ : σ.Explains P cfg W s₀ programs h)
    (hall : ∀ i, (σ.conns i).weight = 0) (e : Network.Event ι) : ¬ σ.Steps P cfg W e σ' := by
  rintro ⟨hstep, -⟩
  obtain ⟨⟨s', c'⟩, hconn, -⟩ := Option.map_eq_some_iff.mp hstep
  obtain ⟨unserved, -, hstage⟩ := hσ.stages e.conn
  have hless := hstage.weight_lt hconn
  rw [hall e.conn] at hless
  exact Nat.not_lt_zero _ hless

/-- Only the rounds of the loop depend on the system. -/
theorem Network.Steps.of_silent {e : Network.Event ι} (he : e.sys = none)
    (h : ((σ.conns e.conn).step P cfg σ.store e).isSome) : ∃ σ', σ.Steps P cfg W e σ' := by
  obtain ⟨σ', hstep⟩ := Network.exists_step h
  refine ⟨σ', hstep, ?_⟩
  intro sys hsys
  rw [he] at hsys
  cases hsys

/-- A connection that nothing can happen to has come to its end, or its request stays unanswered. -/
theorem Connection.Stage.ends {i : ι} (hstage : (σ.conns i).Stage unserved frames)
    (hstuck : ∀ e σ', ¬ σ.Steps P cfg W e σ') :
    (unserved = [] ∧ (σ.conns i).client.responses = frames.map .ok ∧
      (σ.conns i).reader.closed = true) ∨
    ∃ r later, unserved = r :: later ∧ (σ.conns i).client.responses = frames.map .ok ∧
      ∀ sys, W σ.store sys → r.packet.result P cfg sys σ.store = none := by
  cases hstage with
  | idle phase todo up down reader stays responses =>
    exfalso
    cases htodo : (σ.conns i).client.todo with
    | nil =>
      obtain ⟨σ', hstep⟩ : ∃ σ', σ.Steps P cfg W (.close i) σ' := by
        apply Network.Steps.of_silent rfl
        simp [Connection.step, Network.Event.conn, phase, htodo, stays]
      exact hstuck _ σ' hstep
    | cons r later =>
      obtain ⟨σ', hstep⟩ : ∃ σ', σ.Steps P cfg W (.write i) σ' := by
        apply Network.Steps.of_silent rfl
        simp [Connection.step, Network.Event.conn, Client.write, phase, htodo]
      exact hstuck _ σ' hstep
  | asked r received phase todo up down reader stays responses =>
    by_cases hup : (σ.conns i).up = []
    · rw [hup, List.append_nil] at up
      rw [up] at reader
      refine .inr ⟨r, _, todo.symm, responses, ?_⟩
      intro sys hsys
      by_contra hsome
      have hback : (r.packet.result P cfg (sys.1, sys.2) σ.store).isSome :=
        Option.isSome_iff_ne_none.mpr hsome
      obtain ⟨σ', hstep⟩ := reader.exists_round hback
      refine hstuck _ σ' ⟨hstep, ?_⟩
      intro sys' hsys'
      obtain rfl : sys = sys' := Option.some.inj hsys'
      exact hsys
    · exfalso
      have hroom : ¬ readerBufferSize - (σ.conns i).reader.bufferLen < (σ.conns i).up.length := by
        have hlen := congrArg List.length up
        have hpay := r.packet.payload_le
        rw [List.length_append, r.packet.length_bytes, tcpHeaderSize] at hlen
        rw [reader.len, readerBufferSize]
        omega
      have hwaits := reader.waits up hup
      obtain ⟨σ', hstep⟩ : ∃ σ', σ.Steps P cfg W (.recv i (σ.conns i).up) σ' := by
        apply Network.Steps.of_silent rfl
        simp [Connection.step, Network.Event.conn, takeChunk_all hup, readerStep, reader.opened,
          hwaits, hroom, hup]
      exact hstuck _ σ' hstep
  | answered frame earlier todo up down pos size reader stays frames_eq responses =>
    exfalso
    obtain ⟨hwants, b, tail, hcons⟩ := down.exists_byte
    have hread := (σ.conns i).client.read_isSome (b := b) hwants
    obtain ⟨σ', hstep⟩ : ∃ σ', σ.Steps P cfg W (.read i [b]) σ' := by
      apply Network.Steps.of_silent rfl
      simpa [Connection.step, Network.Event.conn, hcons, takeChunk_cons] using hread
    exact hstuck _ σ' hstep
  | left phase todo none up down reader leaves responses =>
    by_cases hclosed : (σ.conns i).reader.closed = true
    · exact .inl ⟨none, responses, hclosed⟩
    · exfalso
      have hwaits := (reader.resolve_left hclosed).waits_nil
      obtain ⟨σ', hstep⟩ : ∃ σ', σ.Steps P cfg W (.recv i []) σ' := by
        apply Network.Steps.of_silent rfl
        simp [Connection.step, Network.Event.conn, takeChunk, up, leaves, readerStep, hclosed,
          hwaits]
      exact hstuck _ σ' hstep

/-- A network that nothing can happen to has answered everything, or waits for a command. -/
theorem Network.Explains.stuck (hσ : σ.Explains P cfg W s₀ programs h)
    (hstuck : ∀ e σ', ¬ σ.Steps P cfg W e σ') :
    (∀ i, (σ.conns i).client.responses.length = (programs i).length ∧
      (σ.conns i).reader.closed = true) ∨
    ∃ i r, (programs i)[(σ.conns i).client.responses.length]? = some r ∧
      ∀ sys, W σ.store sys → r.packet.result P cfg sys σ.store = none := by
  by_cases hall : ∀ i, (σ.conns i).client.responses.length = (programs i).length ∧
      (σ.conns i).reader.closed = true
  · exact .inl hall
  · right
    obtain ⟨i, hi⟩ := not_forall.mp hall
    obtain ⟨unserved, hprogram, hstage⟩ := hσ.stages i
    obtain ⟨rfl, hresponses, hclosed⟩ | ⟨r, later, rfl, hresponses, hnone⟩ := hstage.ends hstuck
    · refine absurd ⟨?_, hclosed⟩ hi
      rw [hresponses, ← hprogram, List.append_nil, List.length_map, List.length_map,
        List.length_map]
    · refine ⟨i, r, ?_, hnone⟩
      have hlen : (σ.conns i).client.responses.length =
          ((callsOf i h).map Served.request).length := by
        rw [hresponses, List.length_map, List.length_map, List.length_map]
      rw [← hprogram, hlen, List.getElem?_append_right le_rfl, Nat.sub_self]
      rfl

/-- A run has no more events than the requests cost. When nothing can happen any more, every
client has a response to each of its requests and every reader has returned, unless the next
request of some client is one whose command does not come back. -/
theorem Network.answers_all [Fintype ι] (s₀ : Store S) (programs : ι → List Request)
    (hrun : Drives (Network.Steps P cfg W) (.start s₀ programs) es σ) :
    es.length ≤ ∑ i, (((programs i).map Request.cost).sum + 2) ∧
    ((∀ e σ', ¬ σ.Steps P cfg W e σ') →
      (∀ i, (σ.conns i).client.responses.length = (programs i).length ∧
        (σ.conns i).reader.closed = true) ∨
      ∃ i r, (programs i)[(σ.conns i).client.responses.length]? = some r ∧
        ∀ sys, W σ.store sys → r.packet.result P cfg sys σ.store = none) := by
  constructor
  · have hlen := Drives.length_le (fun σ => ∃ h, σ.Explains P cfg W s₀ programs h)
      Network.weight ?_ hrun ⟨[], .start s₀ programs⟩
    · have hstart : (Network.start s₀ programs).weight =
          ∑ i, (((programs i).map Request.cost).sum + 2) := by
        apply Finset.sum_congr rfl
        intro i _
        simp [Network.start, Connection.weight, Reader.start]
      omega
    · rintro σ e σ' ⟨h, hσ⟩ hstep
      obtain ⟨h', -, hσ'⟩ := hσ.step hstep
      exact ⟨⟨_, hσ'⟩, Network.weight_lt hσ hstep⟩
  · intro hstuck
    obtain ⟨h, -, hσ⟩ := (Explains.start s₀ programs).run hrun
    exact hσ.stuck hstuck

end Ends

/-- The run of two clients to its end. -/
theorem twoClients_left : ∃ es σ, Drives PlainSteps twoClients es σ ∧
    (∀ e σ', ¬ PlainSteps σ e σ') ∧
    ∀ i, (σ.conns i).client = ⟨[], .idle, [noExistResponse]⟩ := by
  obtain ⟨es, σ, hrun, -, hrests⟩ := twoClients_served
  obtain ⟨c, hleaves, hclient, hup, hdown, hlen, hclosed, hhung⟩ := (hrests 0).leaves
    σ.store plainScores ⟨checkedConfig, .empty⟩ (fun _ _ => True) (0 : Fin 2)
  have hrun₁ := hrun.append (Network.alone hleaves)
  obtain ⟨c', hleaves', hclient', hup', hdown', hlen', hclosed', hhung'⟩ := (hrests 1).leaves
    σ.store plainScores ⟨checkedConfig, .empty⟩ (fun _ _ => True) (1 : Fin 2)
  have hrun₂ := hrun₁.append (Network.alone (i := (1 : Fin 2)) hleaves')
  obtain ⟨h, -, hexplains⟩ := (Network.Explains.start freshStore fun _ => [existRequest]).run hrun₂
  refine ⟨_, _, hrun₂, fun e σ' => hexplains.at_end (Fin.forall_fin_two.mpr ⟨?_, ?_⟩) e,
    Fin.forall_fin_two.mpr ⟨hclient, hclient'⟩⟩
  · simp [Connection.weight, hclient, hup, hdown, hlen, hclosed, hhung]
  · simp [Connection.weight, hclient', hup', hdown', hlen', hclosed', hhung']

theorem Network.answers_all_two : ∃ es, ∃ σ : Network (Fin 2) ℕ,
    Drives PlainSteps twoClients es σ ∧
    es.length ≤ ∑ _i : Fin 2, (([existRequest].map Request.cost).sum + 2) ∧
    (∀ e σ', ¬ PlainSteps σ e σ') ∧
    ∀ i, (σ.conns i).client.responses.length = 1 ∧ (σ.conns i).reader.closed = true := by
  obtain ⟨es, σ, hrun, hstuck, hclient⟩ := twoClients_left
  obtain ⟨hlen, hend⟩ := Network.answers_all freshStore (fun _ => [existRequest]) hrun
  refine ⟨es, σ, hrun, hlen, hstuck, ?_⟩
  obtain hall | ⟨i, r, hr, -⟩ := hend hstuck
  · exact hall
  · rw [hclient i] at hr
    cases hr

end KvStore
