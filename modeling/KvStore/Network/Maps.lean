import KvStore.Network.Progress
import KvStore.Protocol.Growing
import KvStore.Protocol.Interchange

/-! What clients see that put `SET` and `GET` queries to the three engines over the network: three
finite maps that they share, in which the first value of a key stays. -/
namespace KvStore
open History Fuel KeyValue

/-- A query to an engine, as one client numbers it. -/
structure MapRequest where
  engine : Engine
  query : Query
  seqId : UInt32
  valid : query.Valid

namespace MapRequest

def request (q : MapRequest) : Request :=
  ⟨.ofNat (q.query.cmd q.engine).code, q.seqId, q.query.payload, q.valid.fits⟩

def toEngine (q : MapRequest) : EngineRequest := ⟨q.engine, q.query, q.seqId.toNat, 0⟩

/-- The answer from maps that hold the first values of their keys. -/
def answer (q : MapRequest) (M : Engine → CString → Option CString) : List UInt8 :=
  q.query.answer q.engine (M q.engine)

end MapRequest

/-- The payload of a query is split into its key and its value. -/
theorem Query.Valid.args {q : Query} (h : q.Valid) :
    RequestPacket.args q.payload = (some q.key, q.value) := by
  have hpos := h.payload_pos
  have hne : q.payload ≠ [] := List.length_pos_iff.mp hpos
  have hlen : tcpHeaderSize + q.payload.length < (packet 0 0 0 q.payload ++ [0]).length := by
    rw [List.length_append, length_packet]
    exact Nat.lt_succ_self _
  have hdata : ((packet 0 0 0 q.payload ++ [0]).drop tcpHeaderSize).take q.payload.length =
      q.payload := by
    rw [packet, List.append_assoc, List.drop_left' (TcpHeader.length_bytes _), List.take_left']
    rfl
  obtain ⟨buffer, hsplit⟩ := h.split 0 0 0 (List.cons_ne_nil 0 [])
  rw [splitPayload_eq hpos hlen, hdata] at hsplit
  rw [RequestPacket.args, if_neg hne]
  dsimp only at hsplit ⊢
  cases hchr : (CString.read q.payload).strchr space with
  | none =>
    rw [hchr] at hsplit
    simp only [Option.some.injEq, Payload.mk.injEq] at hsplit
    rw [← hsplit.2.1, ← hsplit.2.2]
  | some i =>
    rw [hchr] at hsplit
    simp only [Option.some.injEq, Payload.mk.injEq] at hsplit
    rw [← hsplit.2.1, ← hsplit.2.2]

section Step

variable {S : Type*} [Comparisons S] {P : Scores S} {cfg : ServerConfig} {n : ℕ} {w : Host}
  {s s' : Store S} {q : MapRequest} {M : Engine → CString → Option CString} {K : Finset CString}
  {text : List UInt8}

theorem MapRequest.result_eq (q : MapRequest) (sys : ℕ × Host) (s : Store S) :
    q.request.packet.result P cfg sys s =
      runCommand P sys.1 sys.2 s cfg (some (q.query.cmd q.engine)) (some q.query.key)
        q.query.value := by
  have hcode : (UInt32.ofNat (q.query.cmd q.engine).code).toNat = (q.query.cmd q.engine).code := by
    rw [UInt32.toNat_ofNat']
    exact Nat.mod_eq_of_lt (Cmd.code_lt _)
  rw [RequestPacket.result]
  dsimp only [request, Request.packet]
  rw [hcode, Cmd.ofCode_code, q.valid.args]

theorem nextMaps_of_ne {r : EngineRequest} {e : Engine} (he : e ≠ r.engine) :
    nextMaps M r e = M e := by
  rw [nextMaps, Function.update_of_ne he]

omit [Comparisons S] in
/-- The maps behind a query: those of the other engines stay, and the array has room for its
keys. -/
theorem Store.Within.behind {r : EngineRequest} (h : s.Within M K)
    (hk : ∀ k v, r.engine = .array → r.query = .set k v → k ∈ K)
    (hkeeps : s'.Keeps r.engine (KeyValue.next (M r.engine) r.query.call))
    (hother : ∀ e' m', e' ≠ r.engine → s.Keeps e' m' → s'.Keeps e' m') :
    s'.Within (nextMaps M r) K := by
  refine ⟨?_, ?_, h.small⟩
  · intro e
    by_cases he : e = r.engine
    · subst he
      rw [nextMaps_self]
      exact hkeeps
    · rw [nextMaps_of_ne he]
      exact hother e (M e) he (h.keeps e)
  · intro j hj
    by_cases he : Engine.array = r.engine
    · rw [he, nextMaps_self] at hj
      cases hq : r.query with
      | get k =>
        rw [hq, ← he] at hj
        exact h.keys j hj
      | set k v =>
        rw [hq, ← he] at hj
        obtain rfl | hj := (isSome_next_set j).mp hj
        · exact hk j v he.symm hq
        · exact h.keys j hj
    · rw [nextMaps_of_ne he] at hj
      exact h.keys j hj

/-- One query of a client is answered from the maps, where there is memory for it. -/
theorem Store.Within.result (h : s.Within M K)
    (hk : ∀ k v, q.engine = .array → q.query = .set k v → k ∈ K) {sys : ℕ × Host}
    (hw : Grants s sys.2) (hres : q.request.packet.result P cfg sys s = some (text, s')) :
    text = q.answer M ∧ s'.Within (nextMaps M q.toEngine) K := by
  obtain ⟨s'', hret, hkeeps, hother⟩ :=
    (h.keeps q.engine).run P cfg hw q.valid fun _ => h.room
  rw [q.result_eq] at hres
  have heq := ((runCommand_growing P cfg sys.2 s _ _ _).returns hres).unique hret
  simp only [Prod.mk.injEq] at heq
  obtain ⟨rfl, rfl⟩ := heq
  exact ⟨rfl, h.behind (r := q.toEngine) hk hkeeps hother⟩

variable (P cfg) in
/-- There is a system that grants the memory for a query, and then its command comes back. -/
theorem Store.Within.comes_back (h : s.Within M K) (q : MapRequest) :
    ∃ sys : ℕ × Host, Grants s sys.2 ∧ (q.request.packet.result P cfg sys s).isSome := by
  obtain ⟨p, hp⟩ := (h.keeps .tree).1.exists_free
  have hw : Grants s { roomyHost with node := ⟨some p, true, true⟩ } := ⟨rfl, ⟨p, rfl, hp⟩, rfl⟩
  obtain ⟨s', ⟨n, hn⟩, -⟩ := (h.keeps q.engine).run P cfg hw q.valid fun _ => h.room
  refine ⟨(n, { roomyHost with node := ⟨some p, true, true⟩ }), hw, ?_⟩
  have hback := hn n le_rfl
  dsimp only at hback
  rw [q.result_eq, hback]
  rfl

end Step

section Runs

variable {ι S : Type*} [Comparisons S] {P : Scores S} {cfg : ServerConfig} {s s' s₀ : Store S}
  {M : Engine → CString → Option CString} {K : Finset CString}

/-- The system grants the memory for a query. -/
def GrantsMemory (s : Store S) (sys : ℕ × Host) : Prop := Grants s sys.2

/-- The queries of a history for the engines. -/
def engineCalls (calls : List (Served ι MapRequest (List UInt8))) : List EngineRequest :=
  calls.map fun c => c.request.toEngine

/-- The keys that queries set in the array are among `K`. -/
def ArrayKeys (K : Finset CString) (qs : List MapRequest) : Prop :=
  ∀ q ∈ qs, ∀ k v, q.engine = .array → q.query = .set k v → k ∈ K

variable {calls : List (Served ι MapRequest (List UInt8))}

/-- A history of queries takes the engines from maps to maps. -/
theorem Store.Within.replays (h : s.Within M K)
    (hrun : Replays (Handles P cfg GrantsMemory) s (calls.map (Served.encode MapRequest.request)) s')
    (hk : ArrayKeys K (calls.map Served.request)) :
    s'.Within ((engineCalls calls).foldl nextMaps M) K := by
  induction calls generalizing s M with
  | nil =>
    cases hrun
    exact h
  | cons c calls ih =>
    obtain ⟨s₁, ⟨sys, hw, hres⟩, hrun⟩ := Replays.first hrun
    obtain ⟨-, h₁⟩ := h.result (hk c.request List.mem_cons_self) hw hres
    exact ih h₁ hrun fun q hq => hk q (List.mem_cons_of_mem _ hq)

/-- Every answer of a history is the one for the maps behind the calls before it. -/
theorem Store.Within.answers (h : s.Within M K)
    (hrun : Replays (Handles P cfg GrantsMemory) s (calls.map (Served.encode MapRequest.request)) s')
    (hk : ArrayKeys K (calls.map Served.request))
    {pre post : List (Served ι MapRequest (List UInt8))} {c : Served ι MapRequest (List UInt8)}
    (hcalls : calls = pre ++ c :: post) :
    c.answer = c.request.answer ((engineCalls pre).foldl nextMaps M) := by
  subst hcalls
  rw [Replays, List.map_append, List.map_append] at hrun
  obtain ⟨t, hpre, hpost⟩ := hrun.split
  have ht := h.replays hpre fun q hq => hk q (by
    rw [List.map_append]
    exact List.mem_append_left _ hq)
  cases hpost with
  | cons hc _ =>
    obtain ⟨sys, hw, hres⟩ := hc
    exact (ht.result (hk c.request (by simp)) hw hres).1

/-- The calls for some queries, one after the other, with the answers from the maps. -/
def answered (M : Engine → CString → Option CString) :
    List (ι × MapRequest) → List (Served ι MapRequest (List UInt8))
  | [] => []
  | (i, q) :: qs => ⟨i, q, q.answer M⟩ :: answered (nextMaps M q.toEngine) qs

/-- Queries can be served in every order. -/
theorem Store.Within.exists_replays (P : Scores S) (cfg : ServerConfig) {qs : List (ι × MapRequest)}
    (h : s.Within M K) (hk : ArrayKeys K (qs.map Prod.snd)) : ∃ s',
    Replays (Handles P cfg GrantsMemory) s
      ((answered M qs).map (Served.encode MapRequest.request)) s' := by
  induction qs generalizing s M with
  | nil => exact ⟨s, Replays.nil⟩
  | cons x qs ih =>
    obtain ⟨i, q⟩ := x
    obtain ⟨sys, hw, hback⟩ := h.comes_back P cfg q
    obtain ⟨⟨text, s₁⟩, hres⟩ := Option.isSome_iff_exists.mp hback
    obtain ⟨rfl, h₁⟩ := h.result (hk q List.mem_cons_self) hw hres
    obtain ⟨s', hs'⟩ := ih h₁ fun q' hq' => hk q' (List.mem_cons_of_mem _ hq')
    exact ⟨s', .cons ⟨sys, hw, hres⟩ hs'⟩

variable [DecidableEq ι] {programs : ι → List MapRequest} {σ : Network ι S}
  {es : List (Network.Event ι)}

/-- Any number of clients put `SET` and `GET` queries to the engines of a server that was just
started, where the array gets fewer keys than it has slots and the system grants memory. In every
run what they see is one history, in which each answer is the one for the first values that were
set in the same engine before it. When nothing can happen any more, every query has its answer. -/
theorem Network.first_set {T : Rbtree} {p : Ptr} (hp : p ≠ null)
    (harray : s₀.array = kvsArrayCreate) (htree : s₀.rbtree = kvsRbtreeCreate T p)
    (hhash : s₀.hash = kvsHashCreate fun _ => some []) (hK : K.card < kvsArraySize)
    (hkeys : ∀ i, ArrayKeys K (programs i))
    (hrun : Drives (Network.Steps P cfg GrantsMemory)
      (.start s₀ fun i => (programs i).map MapRequest.request) es σ) :
    ∃ calls : List (Served ι MapRequest (List UInt8)),
      σ.Linear P cfg GrantsMemory s₀ (fun i => (programs i).map MapRequest.request)
        (calls.map (Served.encode MapRequest.request)) ∧
      (∀ pre c post, calls = pre ++ c :: post → c.answer =
        c.request.answer fun e k => firstSet e k (engineCalls pre)) ∧
      ((∀ e σ', ¬ σ.Steps P cfg GrantsMemory e σ') → ∀ i,
        (σ.conns i).client.responses.length = (programs i).length ∧
        (σ.conns i).reader.closed = true) := by
  have hfresh : s₀.Within (fun _ _ => none) K := .fresh hp harray htree hhash hK
  obtain ⟨h, -, hσ⟩ := (Explains.start s₀ fun i => (programs i).map MapRequest.request).run hrun
  obtain ⟨calls, rfl, hcalls⟩ := exists_encoded fun c hc => hσ.linear.mem_program hc
  have hk : ArrayKeys K (calls.map Served.request) := by
    intro q hq
    obtain ⟨c, hc, rfl⟩ := List.mem_map.mp hq
    exact hkeys c.client c.request (hcalls c hc)
  refine ⟨calls, hσ.linear, ?_, ?_⟩
  · intro pre c post hsplit
    have hanswer := hfresh.answers hσ.replays hk hsplit
    have hfirst : (engineCalls pre).foldl nextMaps (fun _ _ => none) =
        fun e k => firstSet e k (engineCalls pre) := by
      funext e k
      rw [foldl_nextMaps, Option.none_or]
    rwa [hfirst] at hanswer
  · intro hstuck
    obtain hall | ⟨i, r, hr, hnone⟩ := hσ.stuck hstuck
    · intro i
      refine ⟨?_, (hall i).2⟩
      rw [(hall i).1, List.length_map]
    · obtain ⟨q, hq, rfl⟩ := List.mem_map.mp (List.mem_of_getElem? hr)
      obtain ⟨sys, hw, hback⟩ := (hfresh.replays hσ.replays hk).comes_back P cfg q
      rw [hnone sys hw] at hback
      cases hback

end Runs

/-- `SET a c`. -/
def setOther : Query := .set (.read [97]) (.read [99])

theorem setOther_valid : setOther.Valid :=
  ⟨by decide, List.forall_mem_singleton.mpr (by decide), by decide, by decide⟩

/-- Both clients set `a` in the tree and in the array, and one of them asks for it. -/
def letterPrograms : Fin 2 → List MapRequest
  | 0 => [⟨.tree, setLetter, 0, setLetter_valid⟩, ⟨.array, setLetter, 1, setLetter_valid⟩]
  | 1 => [⟨.tree, setOther, 0, setOther_valid⟩, ⟨.array, setOther, 1, setOther_valid⟩,
    ⟨.tree, getLetter, 2, getLetter_valid⟩, ⟨.hash, getLetter, 3, getLetter_valid⟩]

/-- The first one is the first in the tree, and the second one in the array. -/
def letterOrder : List (Fin 2 × MapRequest) :=
  [(firstClient, ⟨.tree, setLetter, 0, setLetter_valid⟩),
    (secondClient, ⟨.tree, setOther, 0, setOther_valid⟩),
    (secondClient, ⟨.array, setOther, 1, setOther_valid⟩),
    (firstClient, ⟨.array, setLetter, 1, setLetter_valid⟩),
    (secondClient, ⟨.tree, getLetter, 2, getLetter_valid⟩),
    (secondClient, ⟨.hash, getLetter, 3, getLetter_valid⟩)]

/-- Only `a` is set. -/
theorem letter_keys {qs : List MapRequest} (hqs : ∀ q ∈ qs,
    q.query = setLetter ∨ q.query = setOther ∨ q.query = getLetter) :
    ArrayKeys {.read [97]} qs := by
  intro q hq k v _ hset
  apply Finset.mem_singleton.mpr
  obtain h | h | h := hqs q hq
  all_goals
    rw [hset] at h
    cases h
  · rfl
  · rfl

theorem letterPrograms_keys (i : Fin 2) : ArrayKeys {.read [97]} (letterPrograms i) := by
  apply letter_keys
  obtain rfl | rfl := Fin.exists_fin_two.mp ⟨i, rfl⟩
  · simp [letterPrograms]
  · simp [letterPrograms]

/-- What the clients get: the value of the first one in the tree, and nothing from the hash engine. -/
example : (answered (fun _ _ => none) letterOrder).map Served.answer =
    [okText, okText, okText, existText, [98], noExistText] := by
  decide +kernel

theorem letterOrder_served : ∃ es σ,
    Drives (Network.Steps plainScores ⟨checkedConfig, .empty⟩ GrantsMemory)
      (.start startStore fun i => (letterPrograms i).map MapRequest.request) es σ ∧
    ∀ i, (σ.conns i).client.responses = (callsOf i ((answered (fun _ _ => none) letterOrder).map
      (Served.encode MapRequest.request))).map fun c => .ok (servedFrame c) := by
  have hfresh : startStore.Within (fun _ _ => none) {.read [97]} :=
    .fresh (T := Rbtree.blank) (p := 1) (by decide) rfl rfl rfl (by decide)
  have hk : ArrayKeys {.read [97]} (letterOrder.map Prod.snd) := letter_keys (by simp [letterOrder])
  obtain ⟨s, hreplay⟩ := hfresh.exists_replays plainScores ⟨checkedConfig, .empty⟩ hk
  obtain ⟨es, σ, hrun, -, hrests⟩ :=
    Network.realizes (fun i => (letterPrograms i).map MapRequest.request) hreplay
      (Fin.forall_fin_two.mpr ⟨List.prefix_rfl, List.prefix_rfl⟩)
  exact ⟨es, σ, hrun, fun i => by rw [(hrests i).client]⟩

theorem Network.first_set_letter : ∃ es, ∃ σ : Network (Fin 2) ℕ,
    ∃ calls : List (Served (Fin 2) MapRequest (List UInt8)),
    Drives (Network.Steps plainScores ⟨checkedConfig, .empty⟩ GrantsMemory)
      (.start startStore fun i => (letterPrograms i).map MapRequest.request) es σ ∧
    (∀ i, (σ.conns i).client.responses = (callsOf i ((answered (fun _ _ => none) letterOrder).map
      (Served.encode MapRequest.request))).map fun c => .ok (servedFrame c)) ∧
    σ.Linear plainScores ⟨checkedConfig, .empty⟩ GrantsMemory startStore
      (fun i => (letterPrograms i).map MapRequest.request)
      (calls.map (Served.encode MapRequest.request)) ∧
    (∀ pre c post, calls = pre ++ c :: post → c.answer =
      c.request.answer fun e k => firstSet e k (engineCalls pre)) ∧
    ((∀ e σ', ¬ σ.Steps plainScores ⟨checkedConfig, .empty⟩ GrantsMemory e σ') → ∀ i,
      (σ.conns i).client.responses.length = (letterPrograms i).length ∧
      (σ.conns i).reader.closed = true) := by
  obtain ⟨es, σ, hrun, hresponses⟩ := letterOrder_served
  obtain ⟨calls, hcalls⟩ := Network.first_set (T := Rbtree.blank) (p := 1) (by decide) rfl rfl rfl
    (by decide) letterPrograms_keys hrun
  exact ⟨es, σ, calls, hrun, hresponses, hcalls⟩

end KvStore
