import KvStore.Lib.Checkpoint
import KvStore.Network.Progress
import KvStore.Protocol.Replies
import KvStore.Protocol.SortedSet

/-! What clients see that put `ZADD`, `ZREM` and `ZRANGE` to the server over the network, among any
other requests: one sorted set. -/
namespace KvStore
open History Fuel SkipList

/-- What a request asks of the sorted set. -/
def Scores.callOf {S : Type*} (P : Scores S) (r : Request) : Option (SetCall S) :=
  P.call (Cmd.ofCode r.cmdType.toNat) (RequestPacket.args r.data).1 (RequestPacket.args r.data).2

section Replays

variable {ι S : Type*} [LinearOrder S] {P : Scores S} {cfg : ServerConfig} {s s' : Store S}
  {M M' : SortedSet S} {r : Request} {t : List UInt8} {h : List (Served ι Request (List UInt8))}

variable (P) in
/-- A request to the sorted set, or one that it knows nothing of. -/
def SetAnswers (M : SortedSet S) (r : Request) (t : List UInt8) (M' : SortedSet S) : Prop :=
  SetStep P M (P.callOf r) t M'

theorem SkipList.Stands.replays [Zero S] (hM : s.skiptable.Stands M)
    (hrun : Replays (Handles P cfg GrantsMember) s h s') :
    ∃ M', Replays (SetAnswers P) M h M' ∧ s'.skiptable.Stands M' := by
  apply Runs.refines (fun (s : Store S) M => s.skiptable.Stands M) hrun hM
  rintro r t - s M s' hM ⟨sys, hw, hres⟩
  exact hM.step (n := sys.1) hw hres

/-- A request to the set comes back when there is a block for a member. -/
theorem SkipList.Stands.comes_back [Zero S] (hM : s.skiptable.Stands M) {p : Ptr}
    (hp : s.skiptable.Fresh p) (hcall : (P.callOf r).isSome) :
    ∃ sys, GrantsMember s sys ∧ (r.packet.result P cfg sys s).isSome := by
  obtain ⟨c, hc⟩ := Option.isSome_iff_exists.mp hcall
  have hw : ∀ n, GrantsMember s (n, { roomyHost with member := p }) :=
    fun n => ⟨hp, Nat.zero_le _⟩
  have hobeys : Obeys P M c fun n => KvStore.runCommand P n { roomyHost with member := p } s cfg
      (Cmd.ofCode r.cmdType.toNat) (RequestPacket.args r.data).1 (RequestPacket.args r.data).2 :=
    hM.runCommand (hw 0) hc
  obtain ⟨t, s', -, ⟨n, hn⟩, -⟩ := hobeys
  refine ⟨(n, { roomyHost with member := p }), hw n, ?_⟩
  have hsome := hn n le_rfl
  dsimp only at hsome
  rw [RequestPacket.result]
  dsimp only [Request.packet]
  rw [hsome]
  rfl

end Replays

section Scored

variable {S : Type*} [LinearOrder S] {P : Scores S} {M M' : SortedSet S} {f : CString → S}
  {K : Set CString} {m : CString → Option CString} {k : CString} {c : Option (SetCall S)} {t : List UInt8}

/-- The sorted set of a map over the keys `K`, in which `f` gives the scores. -/
structure SortedSet.Scored (M : SortedSet S) (f : CString → S) (K : Set CString)
    (m : CString → Option CString) : Prop where
  lookup : ∀ score k, M.lookup (toLex (score, k)) = if score = f k then m k else none
  keys : ∀ k, (m k).isSome → k ∈ K

/-- What a call makes of the map. -/
def nextMembers (m : CString → Option CString) : Option (SetCall S) → CString → Option CString
  | some (.zadd k v _) => Function.update m k (some v)
  | some (.zrem k) => Function.update m k none
  | _ => m

theorem SortedSet.Scored.of_lookup (h : M.Scored f K m) {score : S}
    (hk : (M.lookup (toLex (score, k))).isSome) : score = f k ∧ (m k).isSome := by
  rw [h.lookup] at hk
  split_ifs at hk with hscore
  · exact ⟨hscore, hk⟩
  · cases hk

theorem SortedSet.Scored.of_mem (h : M.Scored f K m) {x : (S ×ₗ CString) × CString}
    (hx : x ∈ M.toList) : (ofLex x.1).1 = f (ofLex x.1).2 ∧ (ofLex x.1).2 ∈ K := by
  obtain ⟨hscore, hm⟩ := h.of_lookup (OrderedMap.lookup_isSome_iff.mpr ⟨x.2, hx⟩)
  exact ⟨hscore, h.keys _ hm⟩

/-- With scores that ascend with the keys, no member is missed. -/
theorem SortedSet.Scored.ascends (h : M.Scored f K m) (hf : StrictMonoOn f K)
    (hk : (m k).isSome) : M.Ascends k := by
  have hthere : (M.lookup (toLex (f k, k))).isSome := by rwa [h.lookup, if_pos rfl]
  obtain ⟨v, hv⟩ := OrderedMap.lookup_isSome_iff.mp hthere
  obtain ⟨pre, post, hl⟩ := List.append_of_mem hv
  obtain ⟨hpre, hpost⟩ := OrderedMap.around hl
  have hlt : ∀ x ∈ M.toList, ∀ y ∈ M.toList, x.1 < y.1 → (ofLex x.1).2 < (ofLex y.1).2 := by
    intro x hx y hy hxy
    obtain ⟨hxf, hxK⟩ := h.of_mem hx
    obtain ⟨hyf, hyK⟩ := h.of_mem hy
    obtain hscore | ⟨-, hkey⟩ := Prod.Lex.lt_iff.mp hxy
    · rw [hxf, hyf] at hscore
      exact (hf.lt_iff_lt hxK hyK).mp hscore
    · exact hkey
  refine ⟨pre, f k, v, post, hl, fun x hx => ?_, fun x hx => ?_⟩
  · exact hlt x (by simp [hl, hx]) _ hv (hpre x hx)
  · exact (hlt _ hv x (by simp [hl, hx]) (hpost x hx)).le

theorem SortedSet.Scored.insert (h : M.Scored f K m) (hk : k ∈ K) (v : CString) :
    SortedSet.Scored (M.insert (toLex (f k, k)) v) f K (Function.update m k (some v)) := by
  constructor
  · intro score j
    rw [OrderedMap.lookup_insert, h.lookup]
    by_cases hj : j = k
    · subst hj
      by_cases hscore : score = f j
      · simp [hscore]
      · simp [hscore]
    · simp [hj]
  · intro j hj
    by_cases he : j = k
    · exact he ▸ hk
    · rw [Function.update_of_ne he] at hj
      exact h.keys j hj

theorem SortedSet.Scored.erase (h : M.Scored f K m) (k : CString) :
    SortedSet.Scored (M.erase (toLex (f k, k))) f K (Function.update m k none) := by
  constructor
  · intro score j
    rw [OrderedMap.lookup_erase, h.lookup]
    by_cases hj : j = k
    · subst hj
      by_cases hscore : score = f j
      · simp [hscore]
      · simp [hscore]
    · simp [hj]
  · intro j hj
    by_cases he : j = k
    · subst he
      rw [Function.update_self] at hj
      cases hj
    · rw [Function.update_of_ne he] at hj
      exact h.keys j hj

/-- A call with the score of its member takes map to map, and `ZREM` tells what it found. -/
theorem SortedSet.Scored.step (h : M.Scored f K m) (hf : StrictMonoOn f K)
    (hs : SetStep P M c t M')
    (hscore : ∀ k v score, c = some (.zadd k v score) → k ∈ K ∧ score = f k) :
    M'.Scored f K (nextMembers m c) ∧
      ∀ k, c = some (.zrem k) → t = if (m k).isSome then okText else noExistText := by
  cases hs with
  | other => exact ⟨h, nofun⟩
  | call hs =>
    cases hs with
    | zadd k v score =>
      obtain ⟨hk, rfl⟩ := hscore k v score rfl
      exact ⟨h.insert hk v, nofun⟩
    | @removed k score hthere =>
      obtain ⟨rfl, hk⟩ := h.of_lookup hthere
      refine ⟨h.erase k, fun j hj => ?_⟩
      cases hj
      rw [if_pos hk]
    | @missed k hno =>
      have habsent : ¬ (m k).isSome := fun hk => hno (h.ascends hf hk)
      refine ⟨?_, fun j hj => ?_⟩
      · have hsame : Function.update m k none = m :=
          Function.update_eq_self_iff.mpr (Option.not_isSome_iff_eq_none.mp habsent).symm
        rwa [nextMembers, hsame]
      · cases hj
        rw [if_neg habsent]
    | zrange => exact ⟨h, nofun⟩
    | refused => exact ⟨h, nofun⟩

end Scored

section Network

variable {ι S : Type*} [DecidableEq ι] [LinearOrder S] [Zero S] {P : Scores S}
  {cfg : ServerConfig} {s₀ : Store S} {programs : ι → List Request} {σ : Network ι S}
  {es : List (Network.Event ι)} {nodes : Ptr → Option (SkipNode S)} {p : Ptr}

/-- Any number of clients, whose programs may have any requests: in every run their `ZADD`, `ZREM`
and `ZRANGE` are answered, in one history of all requests, from one sorted set. Clients that use
nothing else have all their answers when nothing can happen any more, as long as there is memory. -/
theorem Network.sorted_set (hp : p ≠ null) (hstart : s₀.skiptable = kvsSkiptableCreate nodes p)
    (hrun : Drives (Network.Steps P cfg GrantsMember) (.start s₀ programs) es σ) :
    ∃ h M, σ.Linear P cfg GrantsMember s₀ programs h ∧ Replays (SetAnswers P) .empty h M ∧
      σ.store.skiptable.Stands M ∧
      ((∀ i, ∀ r ∈ programs i, (P.callOf r).isSome) → (∃ q, σ.store.skiptable.Fresh q) →
        (∀ e σ', ¬ σ.Steps P cfg GrantsMember e σ') → ∀ i,
          (σ.conns i).client.responses.length = (programs i).length ∧
          (σ.conns i).reader.closed = true) := by
  have hempty : s₀.skiptable.Stands .empty := by
    rw [hstart]
    exact .create nodes hp
  obtain ⟨h, -, hσ⟩ := (Explains.start s₀ programs).run hrun
  obtain ⟨M, hset, hM⟩ := hempty.replays hσ.replays
  refine ⟨h, M, hσ.linear, hset, hM, ?_⟩
  rintro hcalls ⟨q, hq⟩ hstuck
  obtain hall | ⟨i, r, hr, hnone⟩ := hσ.stuck hstuck
  · exact hall
  · have hcall := hcalls i r (List.mem_of_getElem? hr)
    obtain ⟨sys, hw, hback⟩ := hM.comes_back hq hcall
    rw [hnone sys hw] at hback
    cases hback

/-- The map behind the calls of a history. -/
def membersOf (P : Scores S) (h : List (Served ι Request (List UInt8))) : CString → Option CString :=
  (h.map fun c => P.callOf c.request).foldl nextMembers fun _ => none

omit [DecidableEq ι] [Zero S] in
theorem SortedSet.Scored.replays {f : CString → S} {K : Set CString} {M M' : SortedSet S}
    {m : CString → Option CString} {h : List (Served ι Request (List UInt8))}
    (hM : M.Scored f K m) (hf : StrictMonoOn f K) (hrun : Replays (SetAnswers P) M h M')
    (hscore : ∀ c ∈ h, ∀ k v score, P.callOf c.request = some (.zadd k v score) →
      k ∈ K ∧ score = f k) :
    M'.Scored f K ((h.map fun c => P.callOf c.request).foldl nextMembers m) := by
  induction h generalizing M m with
  | nil =>
    cases hrun
    exact hM
  | cons c h ih =>
    obtain ⟨M₁, hc, hrun⟩ := hrun.first
    obtain ⟨hM₁, -⟩ := hM.step hf hc (hscore c List.mem_cons_self)
    exact ih hM₁ hrun fun d hd => hscore d (List.mem_cons_of_mem c hd)

/-- Clients that give each member a score of its own, with scores that ascend with the keys, have an
exact sorted set: a `ZREM` finds its member whenever it was added after it was last removed, a `ZADD`
answers `EXIST` exactly for those, and the set behind a `ZRANGE` has the last value of each. -/
theorem Network.ascending_set {f : CString → S} {K : Set CString} (hp : p ≠ null)
    (hstart : s₀.skiptable = kvsSkiptableCreate nodes p) (hf : StrictMonoOn f K)
    (hscore : ∀ i, ∀ r ∈ programs i, ∀ k v score,
      P.callOf r = some (.zadd k v score) → k ∈ K ∧ score = f k)
    (hrun : Drives (Network.Steps P cfg GrantsMember) (.start s₀ programs) es σ) :
    ∃ h, σ.Linear P cfg GrantsMember s₀ programs h ∧ ∀ pre c post, h = pre ++ c :: post →
      ∃ M M', SortedSet.Scored M f K (membersOf P pre) ∧
        SetStep P M (P.callOf c.request) c.answer M' ∧
        ∀ k, P.callOf c.request = some (.zrem k) →
          c.answer = if (membersOf P pre k).isSome then okText else noExistText := by
  have hempty : s₀.skiptable.Stands .empty := by
    rw [hstart]
    exact .create nodes hp
  obtain ⟨h, -, hσ⟩ := (Explains.start s₀ programs).run hrun
  obtain ⟨M₀, hset, -⟩ := hempty.replays hσ.replays
  refine ⟨h, hσ.linear, ?_⟩
  rintro pre c post rfl
  have hscores : ∀ d ∈ pre ++ c :: post, ∀ k v score,
      P.callOf d.request = some (.zadd k v score) → k ∈ K ∧ score = f k :=
    fun d hd => hscore d.client d.request (hσ.linear.mem_program hd)
  obtain ⟨M, hpre, hpost⟩ := hset.between
  have hnone : SortedSet.Scored (.empty : SortedSet S) f K fun _ => none := by
    refine ⟨fun score k => ?_, nofun⟩
    rw [ite_self]
    rfl
  have hM := hnone.replays hf hpre fun d hd => hscores d (List.mem_append_left _ hd)
  obtain ⟨M', hc, -⟩ := hpost
  exact ⟨M, M', hM, hc, (hM.step hf hc (hscores c (by simp))).2⟩

end Network

/-- Scores of one digit. Every range is from 0 to 9. -/
def oneDigitScores : Scores ℕ where
  atof s :=
    match s.bytes with
    | b :: _ => if 48 ≤ b ∧ b ≤ 57 then (b - 48).toNat else 0
    | [] => 0
  sscanf _ := some (0, 9)
  format score := .read [UInt8.ofNat (48 + score), 46, 48, 48]

/-- `ZADD` of a letter with the value `x` and a digit, `ZREM` of a letter, and `ZRANGE a 0 9`. -/
def zaddLetter (letter digit : UInt8) : Request :=
  ⟨31, 0, [letter, 32, 120, 32, digit], Nat.le_of_ble_eq_true rfl⟩
def zremLetter (letter : UInt8) : Request := ⟨32, 0, [letter], Nat.le_of_ble_eq_true rfl⟩
def zrangeAll : Request := ⟨33, 0, [97, 32, 48, 32, 57], Nat.le_of_ble_eq_true rfl⟩

/-- The line `b x 2.00`. -/
def rangeLine : List UInt8 := [98, 32, 120, 32, 50, 46, 48, 48, 10]

/-- One client adds `a` and `b` and lists the set, the other one removes `a` twice. -/
def memberPrograms : Fin 2 → List Request
  | 0 => [zaddLetter 97 49, zaddLetter 98 50, zrangeAll]
  | 1 => [zremLetter 97, zremLetter 97]

/-- The second removal misses, and only `b` is listed. -/
def memberCalls : List (Served (Fin 2) Request (List UInt8)) :=
  [⟨firstClient, zaddLetter 97 49, okText⟩, ⟨firstClient, zaddLetter 98 50, okText⟩,
    ⟨secondClient, zremLetter 97, okText⟩, ⟨secondClient, zremLetter 97, noExistText⟩,
    ⟨firstClient, zrangeAll, rangeLine⟩]

/-- A system with this block for a new member. -/
def memberHost (p : Ptr) : ℕ × Host := (5, { roomyHost with member := p })

theorem memberHost_grants {s : Store ℕ} {p : Ptr} (hp : p ≠ null)
    (hfree : s.skiptable.nodes p = none) : GrantsMember s (memberHost p) :=
  ⟨⟨hp, hfree⟩, Nat.zero_le _⟩

/-- The calls are served in this order. -/
theorem memberCalls_served : ∃ es σ,
    Drives (Network.Steps oneDigitScores ⟨checkedConfig, .empty⟩ GrantsMember)
      (.start emptyServer memberPrograms) es σ ∧
    ∀ i, (σ.conns i).client.responses = (callsOf i memberCalls).map fun c => .ok (servedFrame c) := by
  have hreplay : ∃ s, Replays (Handles oneDigitScores ⟨checkedConfig, .empty⟩ GrantsMember)
      emptyServer memberCalls s := by
    refine ⟨_, .cons (.of_answer (memberHost 2) (memberHost_grants (by decide) rfl) ?_)
      (.cons (.of_answer (memberHost 3) (memberHost_grants (by decide) rfl) ?_)
      (.cons (.of_answer (memberHost 4) (memberHost_grants (by decide) rfl) ?_)
      (.cons (.of_answer (memberHost 4) (memberHost_grants (by decide) rfl) ?_)
      (.cons (.of_answer (memberHost 4) (memberHost_grants (by decide) rfl) ?_) (.nil _)))))⟩
    all_goals decide +kernel
  obtain ⟨s, hreplay⟩ := hreplay
  obtain ⟨es, σ, hrun, -, hrests⟩ := Network.realizes memberPrograms hreplay
    (Fin.forall_fin_two.mpr ⟨List.prefix_rfl, List.prefix_rfl⟩)
  exact ⟨es, σ, hrun, fun i => by rw [(hrests i).client]⟩

theorem Network.sorted_set_letter : ∃ (es : _) (σ : Network (Fin 2) ℕ) (h : _) (M : SortedSet ℕ),
    Drives (Network.Steps oneDigitScores ⟨checkedConfig, .empty⟩ GrantsMember)
      (.start emptyServer memberPrograms) es σ ∧
    (∀ i, (σ.conns i).client.responses =
      (callsOf i memberCalls).map fun c => .ok (servedFrame c)) ∧
    σ.Linear oneDigitScores ⟨checkedConfig, .empty⟩ GrantsMember emptyServer memberPrograms h ∧
    Replays (SetAnswers oneDigitScores) .empty h M ∧ σ.store.skiptable.Stands M := by
  obtain ⟨es, σ, hrun, hresponses⟩ := memberCalls_served
  have hstart : emptyServer.skiptable = kvsSkiptableCreate (fun _ => none) 9 := rfl
  obtain ⟨h, M, hlinear, hset, hM, -⟩ := Network.sorted_set (by decide) hstart hrun
  exact ⟨es, σ, h, M, hrun, hresponses, hlinear, hset, hM⟩

/-- The score that is given to a letter. -/
def letterScore (k : CString) : ℕ := if k = .read [97] then 1 else 2

theorem letterScore_mono : StrictMonoOn letterScore {.read [97], .read [98]} := by
  have hlt : CString.read [97] < CString.read [98] := by decide
  rintro x (rfl | rfl) y (rfl | rfl) hxy
  · exact absurd hxy (lt_irrefl _)
  · decide
  · exact absurd hxy hlt.asymm
  · exact absurd hxy (lt_irrefl _)

/-- What the server makes of the requests. -/
theorem memberPrograms_calls :
    oneDigitScores.callOf (zaddLetter 97 49) = some (.zadd (.read [97]) (.read [120]) 1) ∧
    oneDigitScores.callOf (zaddLetter 98 50) = some (.zadd (.read [98]) (.read [120]) 2) ∧
    oneDigitScores.callOf (zremLetter 97) = some (.zrem (.read [97])) ∧
    oneDigitScores.callOf zrangeAll = some (.zrange 0 9) := ⟨rfl, rfl, rfl, rfl⟩

/-- Each of the two members has its score. -/
theorem memberPrograms_scores : ∀ i, ∀ r ∈ memberPrograms i, ∀ k v score,
    oneDigitScores.callOf r = some (.zadd k v score) →
      k ∈ ({.read [97], .read [98]} : Set CString) ∧ score = letterScore k := by
  obtain ⟨hfirst, hsecond, hzrem, hrange⟩ := memberPrograms_calls
  refine Fin.forall_fin_two.mpr ⟨fun r hr k v score hcall => ?_, fun r hr k v score hcall => ?_⟩
  · simp only [memberPrograms, List.mem_cons, List.not_mem_nil, or_false] at hr
    obtain rfl | rfl | rfl := hr
    · rw [hfirst] at hcall
      cases hcall
      exact ⟨.inl rfl, rfl⟩
    · rw [hsecond] at hcall
      cases hcall
      exact ⟨.inr rfl, rfl⟩
    · rw [hrange] at hcall
      cases hcall
  · simp only [memberPrograms, List.mem_cons, List.not_mem_nil, or_false, or_self] at hr
    rw [hr, hzrem] at hcall
    cases hcall

theorem Network.ascending_set_letter : ∃ (es : _) (σ : Network (Fin 2) ℕ) (h : _),
    Drives (Network.Steps oneDigitScores ⟨checkedConfig, .empty⟩ GrantsMember)
      (.start emptyServer memberPrograms) es σ ∧
    (∀ i, (σ.conns i).client.responses =
      (callsOf i memberCalls).map fun c => .ok (servedFrame c)) ∧
    σ.Linear oneDigitScores ⟨checkedConfig, .empty⟩ GrantsMember emptyServer memberPrograms h ∧
    ∀ pre c post, h = pre ++ c :: post → ∃ M M', SortedSet.Scored M letterScore
      {.read [97], .read [98]} (membersOf oneDigitScores pre) ∧
      SetStep oneDigitScores M (oneDigitScores.callOf c.request) c.answer M' ∧
      ∀ k, oneDigitScores.callOf c.request = some (.zrem k) →
        c.answer = if (membersOf oneDigitScores pre k).isSome then okText else noExistText := by
  obtain ⟨es, σ, hrun, hresponses⟩ := memberCalls_served
  have hstart : emptyServer.skiptable = kvsSkiptableCreate (fun _ => none) 9 := rfl
  obtain ⟨h, hlinear, hcalls⟩ := Network.ascending_set (by decide) hstart letterScore_mono
    memberPrograms_scores hrun
  exact ⟨es, σ, h, hrun, hresponses, hlinear, hcalls⟩

end KvStore
