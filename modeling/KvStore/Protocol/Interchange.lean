import KvStore.Protocol.Replies

/-! The same `SET` and `GET` requests on each of the three engines. `kvs_rbtree_set` answers 0
also for a key that is there, so the replies agree exactly when no key is set twice. -/
namespace KvStore
open KeyValue Fuel

/-- The keys that are set, in order. -/
def setKeys (qs : List Query) : List CString :=
  qs.filterMap fun q =>
    match q with
    | .set k _ => some k
    | .get _ => none

/-- The answers of an engine to a list of queries. -/
def answers (e : Engine) : (CString → Option CString) → List Query → List (List UInt8) :=
  replies (fun m q => next m q.call) fun m q => q.answer e m

section Answers

variable {m : CString → Option CString} {qs : List Query} {k v : CString}

theorem isSome_next_set (j : CString) :
    (next m (.set k v) j).isSome ↔ j = k ∨ (m j).isSome := by
  rw [next]
  by_cases hk : (m k).isSome
  · rw [if_pos hk]
    constructor
    · exact .inr
    · rintro (rfl | h)
      · exact hk
      · exact h
  · rw [if_neg hk]
    by_cases hj : j = k
    · simp [hj]
    · simp [hj]

theorem answer_tree_eq_iff :
    (Query.set k v).answer .tree m = (Query.set k v).answer .array m ↔ ¬ (m k).isSome := by
  have htree : (Query.set k v).answer .tree m = okText := by simp [Query.answer]
  have harray : (Query.set k v).answer .array m =
      if (m k).isSome then existText else okText := by simp [Query.answer]
  rw [htree, harray]
  by_cases hk : (m k).isSome
  · rw [if_pos hk]
    constructor
    · intro h
      exact absurd h (by decide)
    · intro h
      exact absurd hk h
  · rw [if_neg hk]
    exact ⟨fun _ => hk, fun _ => rfl⟩

/-- The tree answers as the array does as long as every key is set once. -/
theorem answers_tree_eq_iff : answers .tree m qs = answers .array m qs ↔
    (setKeys qs).Nodup ∧ ∀ k ∈ setKeys qs, ¬ (m k).isSome := by
  induction qs generalizing m with
  | nil => simp [answers, replies, setKeys]
  | cons q qs ih =>
    have hcons : answers .tree m (q :: qs) = answers .array m (q :: qs) ↔
        q.answer .tree m = q.answer .array m ∧
          answers .tree (next m q.call) qs = answers .array (next m q.call) qs := by
      simp only [answers, replies, List.cons.injEq]
    rw [hcons, ih]
    cases q with
    | get k =>
      have hget : (Query.get k).answer .tree m = (Query.get k).answer .array m := rfl
      simp only [hget, true_and]
      rfl
    | set k v =>
      have hkeys : setKeys (.set k v :: qs) = k :: setKeys qs := rfl
      rw [answer_tree_eq_iff, hkeys, List.nodup_cons]
      simp only [Query.call, isSome_next_set, List.mem_cons, forall_eq_or_imp, not_or]
      constructor
      · rintro ⟨hk, hnodup, hall⟩
        exact ⟨⟨fun hmem => (hall k hmem).1 rfl, hnodup⟩, hk, fun j hj => (hall j hj).2⟩
      · rintro ⟨⟨hmem, hnodup⟩, hk, hall⟩
        exact ⟨hk, hnodup, fun j hj => ⟨fun he => hmem (he ▸ hj), hall j hj⟩⟩

theorem answers_hash : answers .hash m qs = answers .array m qs := by
  induction qs generalizing m with
  | nil => rfl
  | cons q qs ih =>
    simp only [answers, replies, List.cons.injEq] at ih ⊢
    refine ⟨?_, ih⟩
    cases q with
    | get k => rfl
    | set k v => simp [Query.answer]

end Answers

section Issue

variable {S : Type*} [Comparisons S] {P : Scores S} {cfg : ServerConfig} {s s' : Store S}
  {e : Engine} {M : Engine → CString → Option CString} {K : Finset CString} {qs : List Query}

/-- A query is put to an engine with some sequence number and flags, and gets a reply text. -/
def Issue (P : Scores S) (cfg : ServerConfig) (e : Engine) (s : Store S) (q : Query)
    (text : List UInt8) (s' : Store S) : Prop :=
  ∃ seqId flags reply, Serves P cfg s ⟨e, q, seqId, flags⟩ reply s' ∧
    text = reply.drop tcpHeaderSize

/-- The engine can answer the queries, one after the other, with these texts. -/
def Yields (P : Scores S) (cfg : ServerConfig) (e : Engine) (s : Store S) (qs : List Query)
    (texts : List (List UInt8)) : Prop :=
  ∃ log s', Runs (Issue P cfg e) s log s' ∧ log.map Prod.fst = qs ∧ log.map Prod.snd = texts

/-- The engines hold their maps, and the keys of the array are among `K`. -/
structure Store.Within (s : Store S) (M : Engine → CString → Option CString)
    (K : Finset CString) : Prop where
  keeps : ∀ e, s.Keeps e (M e)
  keys : ∀ k, (M .array k).isSome → k ∈ K
  small : K.card < kvsArraySize

omit [Comparisons S] in
theorem Store.Within.room (h : s.Within M K) : s.array.total < kvsArraySize :=
  lt_of_le_of_lt ((h.keeps .array).1.total_le h.keys) h.small

omit [Comparisons S] in
theorem Store.Within.next {r : EngineRequest} (h : s.Within M K) (hk : r.query.key ∈ K)
    (hkeeps : s'.Keeps r.engine (KeyValue.next (M r.engine) r.query.call))
    (hother : ∀ e' m', e' ≠ r.engine → s.Keeps e' m' → s'.Keeps e' m') :
    s'.Within (nextMaps M r) K := by
  refine ⟨?_, ?_, h.small⟩
  · intro e
    rw [nextMaps]
    by_cases he : e = r.engine
    · subst he
      rwa [Function.update_self]
    · rw [Function.update_of_ne he]
      exact hother e (M e) he (h.keeps e)
  · intro j hj
    rw [nextMaps] at hj
    by_cases he : Engine.array = r.engine
    · rw [he, Function.update_self] at hj
      cases hq : r.query with
      | get k =>
        rw [hq] at hj
        exact h.keys j (he ▸ hj)
      | set k v =>
        rw [hq] at hj hk
        obtain rfl | hj := (isSome_next_set j).mp hj
        · exact hk
        · exact h.keys j (he ▸ hj)
    · rw [Function.update_of_ne he] at hj
      exact h.keys j hj

theorem nextMaps_self (r : EngineRequest) :
    nextMaps M r r.engine = next (M r.engine) r.query.call := by
  rw [nextMaps, Function.update_self]

/-- One query: the text is the answer, and it can be had. -/
theorem Issue.keeps {q : Query} {text : List UInt8} (hs : Issue P cfg e s q text s')
    (h : s.Within M K) (hk : q.key ∈ K) :
    text = q.answer e (M e) ∧ ∃ seqId flags, s'.Within (nextMaps M ⟨e, q, seqId, flags⟩) K := by
  obtain ⟨seqId, flags, reply, hs, rfl⟩ := hs
  obtain ⟨rfl, hkeeps, hother⟩ := hs.keeps (h.keeps e) fun _ => h.room
  exact ⟨(response_spec hs.1 _).2.2, seqId, flags,
    h.next (r := ⟨e, q, seqId, flags⟩) hk hkeeps hother⟩

variable (P cfg) in
theorem Store.Within.issue {q : Query} (h : s.Within M K) (hq : q.Valid) (hk : q.key ∈ K) :
    ∃ s', Issue P cfg e s q (q.answer e (M e)) s' ∧ s'.Within (nextMaps M ⟨e, q, 0, 0⟩) K := by
  have hr : EngineRequest.WellFormed ⟨e, q, 0, 0⟩ := ⟨hq, Nat.two_pow_pos 32, Nat.two_pow_pos 32⟩
  obtain ⟨s', hs, hkeeps, hother⟩ := Store.Keeps.exists_serves P cfg (r := ⟨e, q, 0, 0⟩)
    (h.keeps e) (h.keeps .tree) hr fun _ => h.room
  refine ⟨s', ⟨0, 0, _, hs, ?_⟩, h.next (r := ⟨e, q, 0, 0⟩) hk hkeeps hother⟩
  exact (response_spec hr _).2.2.symm

/-- The queries can be answered, and with the answers for the map of the engine only. -/
theorem Store.Within.yields_iff {texts : List (List UInt8)} (h : s.Within M K)
    (hqs : ∀ q ∈ qs, q.Valid ∧ q.key ∈ K) :
    Yields P cfg e s qs texts ↔ texts = answers e (M e) qs := by
  constructor
  · rintro ⟨log, s', hrun, rfl, rfl⟩
    induction hrun generalizing M with
    | nil s => rfl
    | @cons s s₁ s' q text log hs _ ih =>
      obtain ⟨rfl, seqId, flags, h₁⟩ := hs.keeps h (hqs q List.mem_cons_self).2
      have htail := ih h₁ fun x hx => hqs x (List.mem_cons_of_mem q hx)
      rw [nextMaps_self ⟨e, q, seqId, flags⟩] at htail
      rw [List.map_cons, List.map_cons, htail]
      rfl
  · rintro rfl
    induction qs generalizing s M with
    | nil => exact ⟨[], s, .nil s, rfl, rfl⟩
    | cons q qs ih =>
      obtain ⟨hq, hk⟩ := hqs q List.mem_cons_self
      obtain ⟨s₁, hs, h₁⟩ := h.issue P cfg (e := e) hq hk
      obtain ⟨log, s', hrun, hfst, hsnd⟩ := ih h₁ fun x hx => hqs x (List.mem_cons_of_mem q hx)
      rw [nextMaps_self ⟨e, q, 0, 0⟩] at hsnd
      refine ⟨(q, q.answer e (M e)) :: log, s', .cons hs hrun, ?_, ?_⟩
      · rw [List.map_cons, hfst]
      · rw [List.map_cons, hsnd]
        rfl

omit [Comparisons S] in
theorem Store.Within.fresh {T : Rbtree} {p : Ptr} (hp : p ≠ null) (harray : s.array = kvsArrayCreate)
    (htree : s.rbtree = kvsRbtreeCreate T p) (hhash : s.hash = kvsHashCreate fun _ => some [])
    (hK : K.card < kvsArraySize) : s.Within (fun _ _ => none) K := by
  refine ⟨?_, ?_, hK⟩
  · exact fun e => .fresh hp htree hhash e fun _ => harray
  · intro k hk
    cases hk

/-- From empty engines and with fewer than 1024 keys, all three engines yield one and the same
sequence of reply texts exactly when no key is set twice. -/
theorem kvsTcpProtocol_interchangeable_iff (P : Scores S) (cfg : ServerConfig) {T : Rbtree} {p : Ptr}
    (hp : p ≠ null) (harray : s.array = kvsArrayCreate) (htree : s.rbtree = kvsRbtreeCreate T p)
    (hhash : s.hash = kvsHashCreate fun _ => some []) (hqs : ∀ q ∈ qs, q.Valid)
    (hcard : (qs.map Query.key).toFinset.card < kvsArraySize) :
    (∃ texts, ∀ e texts', Yields P cfg e s qs texts' ↔ texts' = texts) ↔ (setKeys qs).Nodup := by
  have hempty : s.Within (fun _ _ => none) (qs.map Query.key).toFinset :=
    .fresh hp harray htree hhash hcard
  have hyields : ∀ e texts, Yields P cfg e s qs texts ↔ texts = answers e (fun _ => none) qs := by
    intro e texts
    apply hempty.yields_iff
    intro q hq
    exact ⟨hqs q hq, by simpa using ⟨q, hq, rfl⟩⟩
  have hnodup : answers .tree (fun _ => none) qs = answers .array (fun _ => none) qs ↔
      (setKeys qs).Nodup := by
    simp [answers_tree_eq_iff]
  rw [← hnodup]
  constructor
  · rintro ⟨texts, htexts⟩
    have hone : ∀ e, answers e (fun _ => none) qs = texts := by
      intro e
      exact (htexts e _).mp ((hyields e _).mpr rfl)
    rw [hone .tree, hone .array]
  · intro h
    refine ⟨answers .array (fun _ => none) qs, ?_⟩
    intro e texts'
    rw [hyields]
    cases e with
    | array => rfl
    | tree => rw [h]
    | hash => rw [answers_hash]

end Issue

theorem kvsTcpProtocol_interchangeable_iff_once :
    [setLetter, getLetter].map Query.key = [.read [97], .read [97]] ∧
    ∃ texts, ∀ e texts', Yields plainScores ⟨checkedConfig, .empty⟩ e startStore
      [setLetter, getLetter] texts' ↔ texts' = texts := by
  refine ⟨rfl, (kvsTcpProtocol_interchangeable_iff _ _ (T := Rbtree.blank) (p := 1) (by decide)
    rfl rfl rfl ?_ (by decide)).mpr (by decide)⟩
  intro q hq
  obtain rfl | hq := List.mem_cons.mp hq
  · exact setLetter_valid
  · rw [List.mem_singleton.mp hq]
    exact getLetter_valid

/-- `RSET` of a key that is there answers `OK`, `SET` answers `EXIST`. -/
theorem kvsRbtreeSet_never_exists :
    ¬ ∃ texts, ∀ e texts', Yields plainScores ⟨checkedConfig, .empty⟩ e startStore
      [setLetter, setLetter] texts' ↔ texts' = texts := by
  rintro ⟨texts, h⟩
  have hfresh : startStore.Within (fun _ _ => none) {setLetter.key} :=
    .fresh (T := Rbtree.blank) (p := 1) (by decide) rfl rfl rfl (by decide)
  have hqs : ∀ q ∈ [setLetter, setLetter], q.Valid ∧ q.key ∈ ({setLetter.key} : Finset CString) := by
    intro q hq
    obtain rfl : q = setLetter := by simpa using hq
    exact ⟨setLetter_valid, Finset.mem_singleton_self _⟩
  have hone : ∀ e, answers e (fun _ => none) [setLetter, setLetter] = texts := by
    intro e
    exact (h e _).mp ((hfresh.yields_iff hqs).mpr rfl)
  have hnodup := (answers_tree_eq_iff.mp ((hone .tree).trans (hone .array).symm)).1
  revert hnodup
  decide

end KvStore
