import KvStore.Lib.Decimal
import KvStore.Network.SortedSet

/-! The requests of `skiptable_bench.go`. Its client names a set in front of the member, and the server
takes the name for the member and the member for the value. -/
namespace KvStore
open History Fuel SkipList Decimal

/-- A call of `singleZaddTest` or of `singleZrangeTest`. -/
inductive BenchCall
  | singleZaddTest (zsetName member value : CString) (score : ℤ)
  | singleZrangeTest (zsetName : CString) (startIdx endIdx : ℤ)

namespace BenchCall

/-- `fmt.Sprintf` with `"%s %s %s %d"` or `"%s %d %d"`. -/
def data : BenchCall → List UInt8
  | singleZaddTest zsetName member value score =>
    zsetName.bytes ++ space :: (member.bytes ++ space :: (value.bytes ++ space :: decimal score))
  | singleZrangeTest zsetName startIdx endIdx =>
    zsetName.bytes ++ space :: (decimal startIdx ++ space :: decimal endIdx)

def cmdType : BenchCall → Cmd
  | singleZaddTest .. => .zadd
  | singleZrangeTest .. => .zrange

/-- Names of sets and members are words. -/
def Words : BenchCall → Prop
  | singleZaddTest zsetName member _ _ => space ∉ zsetName.bytes ∧ space ∉ member.bytes
  | singleZrangeTest zsetName _ _ => space ∉ zsetName.bytes

/-- What the server makes of a call: the score is read from the value on. -/
def setCall {S : Type*} (P : Scores S) : BenchCall → SetCall S
  | singleZaddTest zsetName member value score =>
    .zadd zsetName member (P.atof (.read (value.bytes ++ space :: decimal score)))
  | singleZrangeTest _ startIdx endIdx =>
    match P.sscanf (.read (decimal startIdx ++ space :: decimal endIdx)) with
    | none => .refused
    | some (min, max) => .zrange min max

end BenchCall

structure BenchRequest where
  call : BenchCall
  seqId : UInt32
  words : call.Words
  data_le : call.data.length ≤ 1024

def BenchRequest.request (q : BenchRequest) : Request :=
  ⟨.ofNat q.call.cmdType.code, q.seqId, q.call.data, q.data_le⟩

section Payload

variable {a rest : List UInt8} {word : CString}

theorem notMem_decimal (n : ℤ) : 0 ∉ decimal n := by
  intro h
  obtain h | h := mem_decimal h
  · revert h
    decide
  · exact absurd h.1 (by decide)

theorem notMem_word (h : 0 ∉ rest) : 0 ∉ word.bytes ++ space :: rest := by
  simp only [List.mem_append, List.mem_cons, not_or]
  exact ⟨word.nonzero, by decide, h⟩

theorem CString.read_of_notMem (h : 0 ∉ a) : (CString.read a).bytes = a :=
  congrArg CString.bytes (CString.read_bytes ⟨a, h⟩)

/-- The first word of a text, and what stands behind its space. -/
theorem strchr_word (hword : space ∉ word.bytes) (hrest : 0 ∉ rest) :
    (CString.read (word.bytes ++ space :: rest)).strchr space = some word.length ∧
    (CString.read (word.bytes ++ space :: rest)).truncate word.length = word ∧
    (CString.read (word.bytes ++ space :: rest)).drop (word.length + 1) = .read rest := by
  have hzero : 0 ∉ word.bytes ++ space :: rest := notMem_word hrest
  have hbytes := CString.read_of_notMem hzero
  refine ⟨CString.strchr_append hword hbytes, ?_, ?_⟩
  · apply CString.ext
    change List.take word.length (CString.read _).bytes = _
    rw [hbytes]
    exact List.take_left' rfl
  · apply CString.ext
    change List.drop (word.length + 1) (CString.read _).bytes = _
    rw [hbytes, CString.read_of_notMem hrest, List.append_cons]
    exact List.drop_left' (by simp [CString.length])

theorem args_word (hword : space ∉ word.bytes) (hrest : 0 ∉ rest) :
    RequestPacket.args (word.bytes ++ space :: rest) = (some word, some (.read rest)) := by
  obtain ⟨hchr, htake, hdrop⟩ := strchr_word hword hrest
  rw [RequestPacket.args, if_neg (by simp)]
  simp only [hchr, htake, hdrop]

end Payload

section Calls

variable {ι S : Type*} {P : Scores S}

/-- The server takes every request of the client for a call of the set. -/
theorem BenchRequest.callOf (q : BenchRequest) : P.callOf q.request = some (q.call.setCall P) := by
  obtain ⟨call, seqId, words, data_le⟩ := q
  cases call with
  | singleZaddTest zsetName member value score =>
    obtain ⟨hset, hmember⟩ := words
    have hvalue : 0 ∉ value.bytes ++ space :: decimal score := notMem_word (notMem_decimal score)
    have hrest : 0 ∉ member.bytes ++ space :: (value.bytes ++ space :: decimal score) :=
      notMem_word hvalue
    obtain ⟨hchr, htake, hdrop⟩ := strchr_word hmember hvalue
    have hargs : RequestPacket.args (zsetName.bytes ++ space ::
        (member.bytes ++ space :: (value.bytes ++ space :: decimal score))) =
          (some zsetName, some (.read (member.bytes ++ space :: (value.bytes ++ space :: decimal score)))) :=
      args_word hset hrest
    have hscore : CString.read ((CString.read
        (member.bytes ++ space :: (value.bytes ++ space :: decimal score))).bytes.drop
          (member.length + 1)) = .read (value.bytes ++ space :: decimal score) := by
      rw [← hdrop]
      exact CString.read_bytes (CString.drop _ _)
    rw [Scores.callOf]
    dsimp only [request, BenchCall.data, BenchCall.setCall]
    rw [hargs]
    change some (P.zaddCall (some zsetName) _) = _
    simp only [Scores.zaddCall, hchr, htake, hscore]
  | singleZrangeTest zsetName startIdx endIdx =>
    have hrest : 0 ∉ decimal startIdx ++ space :: decimal endIdx := by
      simp only [List.mem_append, List.mem_cons, not_or]
      exact ⟨notMem_decimal startIdx, by decide, notMem_decimal endIdx⟩
    have hargs : RequestPacket.args (zsetName.bytes ++ space ::
        (decimal startIdx ++ space :: decimal endIdx)) =
          (some zsetName, some (.read (decimal startIdx ++ space :: decimal endIdx))) :=
      args_word words hrest
    rw [Scores.callOf]
    dsimp only [request, BenchCall.data, BenchCall.setCall]
    rw [hargs]
    rfl

variable [LinearOrder S]

/-- The member of the last `singleZaddTest` with this name of a set whose value starts with this
score. -/
def nextEntries (P : Scores S) (m : S ×ₗ CString → Option CString) :
    BenchCall → S ×ₗ CString → Option CString
  | .singleZaddTest zsetName member value score =>
    Function.update m (toLex (P.atof (.read (value.bytes ++ space :: decimal score)), zsetName))
      (some member)
  | .singleZrangeTest .. => m

theorem SetSpec.nextEntries {M M' : SortedSet S} {b : BenchCall} {t : List UInt8}
    (h : SetSpec P M (b.setCall P) t M') : M'.lookup = KvStore.nextEntries P M.lookup b := by
  cases b with
  | singleZaddTest zsetName member value score =>
    cases h
    funext a
    rw [OrderedMap.lookup_insert, KvStore.nextEntries, Function.update_apply]
    congr
  | singleZrangeTest zsetName startIdx endIdx =>
    rw [BenchCall.setCall] at h
    split at h
    · cases h
      rfl
    · cases h
      rfl

/-- Every answer of a history is the one of a set that has the last entries before it. -/
theorem bench_replays {M M' : SortedSet S} {m : S ×ₗ CString → Option CString}
    {calls : List (Served ι BenchRequest (List UInt8))} (hM : M.lookup = m)
    (hrun : Replays (SetAnswers P) M (calls.map (Served.encode BenchRequest.request)) M') :
    M'.lookup = (calls.map fun c => c.request.call).foldl (nextEntries P) m := by
  induction calls generalizing M m with
  | nil =>
    cases hrun
    exact hM
  | cons c calls ih =>
    obtain ⟨M₁, hc, hrun⟩ := Replays.first hrun
    rw [Served.encode, SetAnswers, c.request.callOf] at hc
    cases hc with
    | call hc =>
      refine ih ?_ hrun
      rw [hc.nextEntries, hM]

end Calls

section Network

variable {ι S : Type*} [DecidableEq ι] [LinearOrder S] [Zero S] {P : Scores S}
  {cfg : ServerConfig} {s₀ : Store S} {programs : ι → List BenchRequest} {σ : Network ι S}
  {es : List (Network.Event ι)} {nodes : Ptr → Option (SkipNode S)} {p : Ptr}

/-- Any number of clients as `skiptable_bench.go`. Their sets are one set, in which a name has one
member for each score: a later one takes the place of an earlier one, with the answer `EXIST`, and a
`ZRANGE` lists the entries of all names. -/
theorem Network.bench_sets (hp : p ≠ null) (hstart : s₀.skiptable = kvsSkiptableCreate nodes p)
    (hrun : Drives (Network.Steps P cfg GrantsMember)
      (.start s₀ fun i => (programs i).map BenchRequest.request) es σ) :
    ∃ calls : List (Served ι BenchRequest (List UInt8)),
      σ.Linear P cfg GrantsMember s₀ (fun i => (programs i).map BenchRequest.request)
        (calls.map (Served.encode BenchRequest.request)) ∧
      ∀ pre c post, calls = pre ++ c :: post → ∃ M M' : SortedSet S,
        M.lookup = (pre.map fun c => c.request.call).foldl (nextEntries P) (fun _ => none) ∧
        SetSpec P M (c.request.call.setCall P) c.answer M' := by
  have hempty : s₀.skiptable.Stands .empty := by
    rw [hstart]
    exact .create nodes hp
  obtain ⟨h, -, hσ⟩ := (Explains.start s₀ fun i => (programs i).map BenchRequest.request).run hrun
  obtain ⟨calls, rfl, -⟩ := exists_encoded fun c hc => hσ.linear.mem_program hc
  refine ⟨calls, hσ.linear, ?_⟩
  rintro pre c post rfl
  obtain ⟨M₀, hset, -⟩ := hempty.replays hσ.replays
  rw [List.map_append, List.map_cons] at hset
  obtain ⟨M, hpre, M', hc, -⟩ := hset.between
  have hc' : SetAnswers P M c.request.request c.answer M' := hc
  rw [SetAnswers, c.request.callOf] at hc'
  cases hc' with
  | call hc => exact ⟨M, M', bench_replays rfl hpre, hc⟩

end Network

/-- `singleZaddTest` with the set `a`, and `singleZrangeTest` from 0 to 9. -/
def benchZadd (member value : CString) (score : ℤ) (hmember : space ∉ member.bytes)
    (hle : (BenchCall.singleZaddTest (.read [97]) member value score).data.length ≤ 1024) :
    BenchRequest :=
  ⟨.singleZaddTest (.read [97]) member value score, 1, ⟨by decide, hmember⟩, hle⟩
def benchZrange : BenchRequest :=
  ⟨.singleZrangeTest (.read [97]) 0 9, 2, (by decide : space ∉ (CString.read [97]).bytes), by decide⟩

/-- One client adds the members `b` and `d` to the set, the other one lists it. -/
def benchPrograms : Fin 2 → List BenchRequest
  | 0 => [benchZadd (.read [98]) (.read [99]) 7 (by decide) (by decide),
    benchZadd (.read [100]) (.read [101]) 8 (by decide) (by decide)]
  | 1 => [benchZrange]

/-- The second member takes the place of the first one. -/
def benchCalls : List (Served (Fin 2) BenchRequest (List UInt8)) :=
  [⟨firstClient, benchZadd (.read [98]) (.read [99]) 7 (by decide) (by decide), okText⟩,
    ⟨firstClient, benchZadd (.read [100]) (.read [101]) 8 (by decide) (by decide), existText⟩,
    ⟨secondClient, benchZrange, [97, 32, 100, 32, 48, 46, 48, 48, 10]⟩]

theorem benchCalls_served : ∃ es σ,
    Drives (Network.Steps oneDigitScores ⟨checkedConfig, .empty⟩ GrantsMember)
      (.start emptyServer fun i => (benchPrograms i).map BenchRequest.request) es σ ∧
    ∀ i, (σ.conns i).client.responses =
      (callsOf i (benchCalls.map (Served.encode BenchRequest.request))).map fun c =>
        .ok (servedFrame c) := by
  have hreplay : ∃ s, Replays (Handles oneDigitScores ⟨checkedConfig, .empty⟩ GrantsMember)
      emptyServer (benchCalls.map (Served.encode BenchRequest.request)) s := by
    refine ⟨_, .cons (.of_answer (memberHost 2) (memberHost_grants (by decide) rfl) ?_)
      (.cons (.of_answer (memberHost 3) (memberHost_grants (by decide) rfl) ?_)
      (.cons (.of_answer (memberHost 3) (memberHost_grants (by decide) rfl) ?_) (.nil _)))⟩
    all_goals decide +kernel
  obtain ⟨s, hreplay⟩ := hreplay
  obtain ⟨es, σ, hrun, -, hrests⟩ :=
    Network.realizes (fun i => (benchPrograms i).map BenchRequest.request) hreplay
      (Fin.forall_fin_two.mpr ⟨List.prefix_rfl, List.prefix_rfl⟩)
  exact ⟨es, σ, hrun, fun i => by rw [(hrests i).client]⟩

theorem Network.bench_sets_letter : ∃ es, ∃ σ : Network (Fin 2) ℕ,
    ∃ calls : List (Served (Fin 2) BenchRequest (List UInt8)),
    Drives (Network.Steps oneDigitScores ⟨checkedConfig, .empty⟩ GrantsMember)
      (.start emptyServer fun i => (benchPrograms i).map BenchRequest.request) es σ ∧
    (∀ i, (σ.conns i).client.responses =
      (callsOf i (benchCalls.map (Served.encode BenchRequest.request))).map fun c =>
        .ok (servedFrame c)) ∧
    σ.Linear oneDigitScores ⟨checkedConfig, .empty⟩ GrantsMember emptyServer
      (fun i => (benchPrograms i).map BenchRequest.request)
      (calls.map (Served.encode BenchRequest.request)) ∧
    ∀ pre c post, calls = pre ++ c :: post → ∃ M M' : SortedSet ℕ,
      M.lookup = (pre.map fun c => c.request.call).foldl (nextEntries oneDigitScores)
        (fun _ => none) ∧
      SetSpec oneDigitScores M (c.request.call.setCall oneDigitScores) c.answer M' := by
  have hstart : emptyServer.skiptable = kvsSkiptableCreate (fun _ => none) 9 := rfl
  obtain ⟨es, σ, hrun, hresponses⟩ := benchCalls_served
  obtain ⟨calls, hlinear, hcalls⟩ := Network.bench_sets (by decide) hstart hrun
  exact ⟨es, σ, calls, hrun, hresponses, hlinear, hcalls⟩

end KvStore
