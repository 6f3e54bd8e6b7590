import KvStore.Protocol.Mutex
import KvStore.Protocol.Serve

/-! Runs of `SET` and `GET` requests through `kvs_tcp_protocol`, from any number of clients. A
`GET` is answered with the value of the first `SET` of its key in its own engine. -/
namespace KvStore
open KeyValue Fuel Endian

/-- A request of a client to one engine. -/
structure EngineRequest where
  engine : Engine
  query : Query
  seqId : ℕ
  flags : ℕ

namespace EngineRequest

def cmdType (r : EngineRequest) : ℕ := (r.query.cmd r.engine).code

def packet (r : EngineRequest) : List UInt8 :=
  KvStore.packet r.cmdType r.seqId r.flags r.query.payload

structure WellFormed (r : EngineRequest) : Prop where
  query : r.query.Valid
  seqId : r.seqId < 2 ^ 32
  flags : r.flags < 2 ^ 32

/-- The response from an engine that holds a map. -/
def response (r : EngineRequest) (m : CString → Option CString) : List UInt8 :=
  buildTcpResponse r.cmdType r.seqId (r.query.answer r.engine m)

end EngineRequest

theorem Cmd.code_lt (c : Cmd) : c.code < 2 ^ 32 := by
  cases c <;> decide

/-- Without a byte behind the payload there is no place for its NUL. -/
theorem splitPayload_none {buffer : List UInt8} {n : ℕ} (hn : 0 < n)
    (hlen : buffer.length ≤ tcpHeaderSize + n) : splitPayload buffer n = none := by
  rw [splitPayload, if_neg hn.ne', if_pos hlen]

section Serves

variable {S : Type*} [Comparisons S] {P : Scores S} {cfg : ServerConfig} {w : Host}
  {s s' : Store S} {m : CString → Option CString} {r : EngineRequest} {rest reply : List UInt8}
  {len : ℕ}

/-- A well-formed request is handled from a buffer that starts with its packet. -/
def Serves (P : Scores S) (cfg : ServerConfig) (s : Store S) (r : EngineRequest)
    (reply : List UInt8) (s' : Store S) : Prop :=
  r.WellFormed ∧ ∃ w rest len buffer, Grants s w ∧ r.packet.length ≤ len ∧
    len ≤ (r.packet ++ rest).length ∧
    Returns (fun n => kvsTcpProtocol P cfg n w s (r.packet ++ rest) len)
      ⟨reply.length, buffer, reply, s'⟩

/-- What the handler leaves of a request whose command came back. -/
def EngineRequest.handled (r : EngineRequest) (p : Payload) (c : List UInt8 × Store S) :
    Handled S :=
  let response := buildTcpResponse r.cmdType r.seqId c.1
  ⟨response.length, p.afterCommand (some (r.query.cmd r.engine)), response, c.2⟩

theorem EngineRequest.WellFormed.kvsTcpProtocol (hr : r.WellFormed) (hle : r.packet.length ≤ len)
    (hlen : len ≤ (r.packet ++ rest).length) (n : ℕ) :
    kvsTcpProtocol P cfg n w s (r.packet ++ rest) len =
      (splitPayload (r.packet ++ rest) r.query.payload.length).bind fun p =>
        (runCommand P n w s cfg (some (r.query.cmd r.engine)) p.key p.value).bind fun c =>
          some (r.handled p c) := by
  have hcode : r.cmdType < 2 ^ 32 := Cmd.code_lt _
  rw [EngineRequest.packet, kvsTcpProtocol_packet hcode hr.seqId hr.flags hr.query.fits hle hlen,
    EngineRequest.cmdType, Cmd.ofCode_code]
  rfl

variable (P cfg) in
/-- The handler comes back with the response for the map, and the engine with the map behind the
query. -/
theorem Store.Keeps.handle (h : s.Keeps r.engine m) (hr : r.WellFormed) (hw : Grants s w)
    (hroom : r.engine = .array → s.array.total < kvsArraySize) (hrest : rest ≠ [])
    (hle : r.packet.length ≤ len) (hlen : len ≤ (r.packet ++ rest).length) :
    ∃ (buffer : List UInt8) (s' : Store S),
      Returns (fun n => kvsTcpProtocol P cfg n w s (r.packet ++ rest) len)
        ⟨(r.response m).length, buffer, r.response m, s'⟩ ∧
      s'.Keeps r.engine (next m r.query.call) ∧
      ∀ e' m', e' ≠ r.engine → s.Keeps e' m' → s'.Keeps e' m' := by
  obtain ⟨s', hrun, hkeeps, hother⟩ := h.run P cfg hw hr.query hroom
  obtain ⟨buffer, hsplit⟩ := hr.query.split r.cmdType r.seqId r.flags hrest
  refine ⟨Payload.afterCommand ⟨buffer, some r.query.key, r.query.value⟩
    (some (r.query.cmd r.engine)), s', ?_, hkeeps, hother⟩
  apply Returns.congr (hrun.bind (g := fun c _ =>
    some (r.handled ⟨buffer, some r.query.key, r.query.value⟩ c)) (.some _))
  intro n
  have hpacket : splitPayload (r.packet ++ rest) r.query.payload.length =
      some ⟨buffer, some r.query.key, r.query.value⟩ := hsplit
  rw [hr.kvsTcpProtocol hle hlen, hpacket, Option.bind_some]

/-- A request that is served has a byte behind its packet. -/
theorem EngineRequest.WellFormed.rest_ne_nil {a : Handled S} (hr : r.WellFormed)
    (hle : r.packet.length ≤ len) (hlen : len ≤ (r.packet ++ rest).length)
    (h : Returns (fun n => KvStore.kvsTcpProtocol P cfg n w s (r.packet ++ rest) len) a) :
    rest ≠ [] := by
  rintro rfl
  have hnone : splitPayload (r.packet ++ []) r.query.payload.length = none := by
    apply splitPayload_none hr.query.payload_pos
    rw [List.append_nil, EngineRequest.packet, length_packet]
  obtain ⟨n, hn⟩ := h
  have hsome := hn n le_rfl
  simp only [hr.kvsTcpProtocol hle hlen, hnone, Option.bind_none] at hsome
  cases hsome

theorem Serves.keeps (hs : Serves P cfg s r reply s') (h : s.Keeps r.engine m)
    (hroom : r.engine = .array → s.array.total < kvsArraySize) :
    reply = r.response m ∧ s'.Keeps r.engine (next m r.query.call) ∧
      ∀ e' m', e' ≠ r.engine → s.Keeps e' m' → s'.Keeps e' m' := by
  obtain ⟨hr, w, rest, len, buffer, hw, hle, hlen, hret⟩ := hs
  obtain ⟨buffer', s'', hret', hkeeps, hother⟩ :=
    h.handle P cfg hr hw hroom (hr.rest_ne_nil hle hlen hret) hle hlen
  have heq := hret.unique hret'
  simp only [Handled.mk.injEq] at heq
  obtain ⟨-, -, rfl, rfl⟩ := heq
  exact ⟨rfl, hkeeps, hother⟩

/-- What a request makes of the maps of the engines. -/
def nextMaps (M : Engine → CString → Option CString) (r : EngineRequest) :
    Engine → CString → Option CString :=
  Function.update M r.engine (next (M r.engine) r.query.call)

/-- The value of the first `SET` of a key in an engine. -/
def firstSet (e : Engine) (k : CString) : List EngineRequest → Option CString
  | [] => none
  | r :: rs =>
    match r.query with
    | .set j v => if r.engine = e ∧ j = k then some v else firstSet e k rs
    | .get _ => firstSet e k rs

/-- A key that is there keeps its value, and an absent one gets its first. -/
theorem foldl_nextMaps (e : Engine) (k : CString) (rs : List EngineRequest)
    (M : Engine → CString → Option CString) :
    rs.foldl nextMaps M e k = (M e k).or (firstSet e k rs) := by
  induction rs generalizing M with
  | nil => simp [firstSet]
  | cons r rs ih =>
    rw [List.foldl_cons, ih]
    by_cases he : r.engine = e
    · subst he
      rw [nextMaps, Function.update_self, firstSet]
      cases hq : r.query with
      | get j => rfl
      | set j v =>
        simp only [Query.call, next, true_and]
        by_cases hj : j = k
        · subst hj
          cases hm : M r.engine j with
          | none => simp
          | some w => simp [hm]
        · rw [if_neg hj]
          by_cases hs : (M r.engine j).isSome
          · rw [if_pos hs]
          · rw [if_neg hs, Function.update_of_ne (Ne.symm hj)]
    · rw [nextMaps, Function.update_of_ne (Ne.symm he), firstSet]
      cases r.query with
      | get j => rfl
      | set j v => simp [he]

/-- The tree and the hash table hold the maps behind the requests of a run. -/
theorem Serves.run {log : List (EngineRequest × List UInt8)} {M : Engine → CString → Option CString}
    (hrun : Runs (Serves P cfg) s log s') (hlog : ∀ x ∈ log, x.1.engine ≠ .array)
    (h : ∀ e, e ≠ .array → s.Keeps e (M e)) :
    ∀ e, e ≠ .array → s'.Keeps e ((log.map Prod.fst).foldl nextMaps M e) := by
  induction hrun generalizing M with
  | nil s => exact h
  | @cons s s₁ s' r reply log hs _ ih =>
    have hr : r.engine ≠ .array := hlog (r, reply) List.mem_cons_self
    obtain ⟨-, hkeeps, hother⟩ := hs.keeps (h r.engine hr) (fun he => absurd he hr)
    apply ih (M := nextMaps M r)
    · intro x hx
      exact hlog x (List.mem_cons_of_mem _ hx)
    · intro e he
      rw [nextMaps]
      by_cases hre : e = r.engine
      · subst hre
        rwa [Function.update_self]
      · rw [Function.update_of_ne hre]
        exact hother e (M e) hre (h e he)

theorem response_spec (hr : r.WellFormed) (m : CString → Option CString) :
    (TcpHeader.read (r.response m)).cmdType = r.cmdType ∧
    (TcpHeader.read (r.response m)).seqId = r.seqId ∧
    (r.response m).drop tcpHeaderSize = r.query.answer r.engine m := by
  have hcode : r.cmdType < 2 ^ 32 := Cmd.code_lt _
  rw [EngineRequest.response, buildTcpResponse, TcpHeader.read_bytes]
  refine ⟨Nat.mod_eq_of_lt hcode, Nat.mod_eq_of_lt hr.seqId, ?_⟩
  exact List.drop_left' (TcpHeader.length_bytes _)

omit [Comparisons S] in
/-- A host that grants what is asked for is there whatever the engines hold. -/
theorem Store.Keeps.exists_grants (h : s.Keeps .tree m) : ∃ w, Grants s w := by
  obtain ⟨p, hp⟩ := h.1.exists_free
  exact ⟨{ roomyHost with node := ⟨some p, true, true⟩ }, rfl, ⟨p, rfl, hp⟩, rfl⟩

/-- Along every run of `RSET`, `RGET`, `HSET` and `HGET` requests from a fresh tree and an empty
table, a reply names the command and the sequence number of its request, and its text is the
answer for the first values that were set in the same engine before it. Every further request is
served, so that the run goes on with its reply. -/
theorem kvsTcpProtocol_first_set (P : Scores S) (cfg : ServerConfig) {T : Rbtree} {p : Ptr}
    (hp : p ≠ null) (htree : s.rbtree = kvsRbtreeCreate T p)
    (hhash : s.hash = kvsHashCreate fun _ => some [])
    {log : List (EngineRequest × List UInt8)} (hrun : Runs (Serves P cfg) s log s')
    (hlog : ∀ x ∈ log, x.1.engine ≠ .array) :
    (∀ pre r reply post, log = pre ++ (r, reply) :: post →
      (TcpHeader.read reply).cmdType = r.cmdType ∧
      (TcpHeader.read reply).seqId = r.seqId ∧
      reply.drop tcpHeaderSize =
        r.query.answer r.engine fun k => firstSet r.engine k (pre.map Prod.fst)) ∧
    (∃ w, Grants s' w) ∧
    ∀ (r : EngineRequest) w rest len, r.WellFormed → r.engine ≠ .array → Grants s' w →
      rest ≠ [] → r.packet.length ≤ len → len ≤ (r.packet ++ rest).length →
      ∃ buffer reply s'', Returns (fun n => kvsTcpProtocol P cfg n w s' (r.packet ++ rest) len)
        ⟨reply.length, buffer, reply, s''⟩ ∧ Serves P cfg s' r reply s'' := by
  have hempty : ∀ e, e ≠ .array → s.Keeps e fun _ => none :=
    fun e he => .fresh hp htree hhash e fun harray => absurd harray he
  refine ⟨?_, (Serves.run hrun hlog hempty .tree (by decide)).exists_grants, ?_⟩
  · rintro pre r reply post rfl
    obtain ⟨s₁, hpre, hpost⟩ := hrun.split
    have hr : r.engine ≠ .array := hlog (r, reply) (by simp)
    have hmaps := Serves.run hpre (fun x hx => hlog x (by simp [hx])) hempty r.engine hr
    have hfirst : (pre.map Prod.fst).foldl nextMaps (fun _ _ => none) r.engine =
        fun k => firstSet r.engine k (pre.map Prod.fst) := by
      funext k
      rw [foldl_nextMaps, Option.none_or]
    rw [hfirst] at hmaps
    cases hpost with
    | cons hs _ =>
      rw [(hs.keeps hmaps fun he => absurd he hr).1]
      exact response_spec hs.1 _
  · intro r w rest len hr he hw hrest hle hlen
    have hmaps := Serves.run hrun hlog hempty r.engine he
    obtain ⟨buffer, s'', hret, -⟩ := hmaps.handle P cfg hr hw
      (fun ha => absurd ha he) hrest hle hlen
    exact ⟨buffer, _, s'', hret, hr, w, rest, len, buffer, hw, hle, hlen, hret⟩

end Serves

/-- The engines of a server that was just started. -/
def startStore : Store ℕ := { freshStore with rbtree := kvsRbtreeCreate Rbtree.blank 1 }

/-- A server that was just started, with an empty skip list. -/
def emptyServer : Store ℕ := { startStore with skiptable := kvsSkiptableCreate (fun _ => none) 9 }

/-- A request can be served whatever the engines hold, as long as the array has a slot left. -/
theorem Store.Keeps.exists_serves {S : Type*} [Comparisons S] (P : Scores S) (cfg : ServerConfig)
    {s : Store S} {r : EngineRequest} {m m' : CString → Option CString} (h : s.Keeps r.engine m)
    (htree : s.Keeps .tree m') (hr : r.WellFormed)
    (hroom : r.engine = .array → s.array.total < kvsArraySize) : ∃ s' : Store S,
    Serves P cfg s r (r.response m) s' ∧ s'.Keeps r.engine (next m r.query.call) ∧
    ∀ e' m', e' ≠ r.engine → s.Keeps e' m' → s'.Keeps e' m' := by
  obtain ⟨w, hw⟩ := htree.exists_grants
  have hlen : r.packet.length ≤ (r.packet ++ [0]).length := by simp
  obtain ⟨buffer, s', hret, hkeeps, hother⟩ := h.handle P cfg hr hw hroom
    (List.cons_ne_nil 0 []) le_rfl hlen
  exact ⟨s', ⟨hr, _, [0], _, buffer, hw, le_rfl, hlen, hret⟩, hkeeps, hother⟩

def setLetter : Query := .set (.read [97]) (.read [98])
def getLetter : Query := .get (.read [97])

theorem setLetter_valid : setLetter.Valid :=
  ⟨by decide, List.forall_mem_singleton.mpr (by decide), by decide, by decide⟩

theorem getLetter_valid : getLetter.Valid :=
  ⟨by decide, List.forall_mem_singleton.mpr (by decide), by decide, by decide⟩

theorem kvsTcpProtocol_first_set_get : ∃ first reply s',
    Runs (Serves plainScores ⟨checkedConfig, .empty⟩) startStore
      [(⟨.tree, setLetter, 0, 0⟩, first), (⟨.tree, getLetter, 1, 0⟩, reply)] s' ∧
    reply.drop tcpHeaderSize = [98] := by
  have hset : EngineRequest.WellFormed ⟨.tree, setLetter, 0, 0⟩ :=
    ⟨setLetter_valid, by decide, by decide⟩
  have hget : EngineRequest.WellFormed ⟨.tree, getLetter, 1, 0⟩ :=
    ⟨getLetter_valid, by decide, by decide⟩
  have htree : startStore.Keeps .tree fun _ => none :=
    .fresh (T := Rbtree.blank) (p := 1) (by decide) rfl rfl .tree nofun
  obtain ⟨s₁, h₁, hkeeps, -⟩ := Store.Keeps.exists_serves plainScores ⟨checkedConfig, .empty⟩
    (r := ⟨.tree, setLetter, 0, 0⟩) htree htree hset (fun he => by cases he)
  obtain ⟨s₂, h₂, -⟩ := Store.Keeps.exists_serves plainScores ⟨checkedConfig, .empty⟩
    (r := ⟨.tree, getLetter, 1, 0⟩) hkeeps hkeeps hget (fun he => by cases he)
  have hrun := Runs.cons h₁ (.cons h₂ (.nil s₂))
  refine ⟨_, _, s₂, hrun, ?_⟩
  exact ((kvsTcpProtocol_first_set _ _ (T := Rbtree.blank) (p := 1) (by decide) rfl rfl hrun
    (by simp)).1 [_] _ _ [] rfl).2.2

end KvStore
