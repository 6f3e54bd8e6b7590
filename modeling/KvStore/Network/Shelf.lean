import KvStore.Network.Leak
import KvStore.Network.Maps
import KvStore.Network.SortedSet
import KvStore.Protocol.Shelf

/-! The whole server over the network: clients that send whatever they like have one history, which is
one of the shelf. -/
namespace KvStore
open History Fuel

section Step

variable {S : Type*} [LinearOrder S] {P : Scores S} {cfg : ServerConfig} {w : Host} {n : ℕ}
  {s s' : Store S} {Q : Shelf S} {cmd : Option Cmd} {key value : Option CString} {t : List UInt8}

/-- A command that comes back does as the shelf says. -/
theorem Store.Shows.step [Zero S] (h : s.Shows Q) (hw : Grants s w) (hmember : GrantsMember s (0, w))
    (hvalue : ∀ v, value = some v → v.length < resultSize)
    (hres : runCommand P n w s cfg cmd key value = some (t, s')) :
    ∃ Q', ShelfSpec P Q (P.task cmd key value) t Q' ∧ s'.Shows Q' := by
  by_cases hsave : cmd = some .save
  · subst hsave
    exact ⟨Q, h.step_save hres⟩
  · by_cases hsound : ∀ c, cmd = some c → c.onArray = true → Q.array = .sound
    · obtain ⟨t', s'', Q', hret, hspec, hs⟩ :=
        h.complies P cfg hw hmember hvalue hsave hsound (runCommand_inTable hres)
      have heq := ((runCommand_growing P cfg w s cmd key value).returns hres).unique hret
      simp only [Prod.mk.injEq] at heq
      obtain ⟨rfl, rfl⟩ := heq
      exact ⟨Q', hspec, hs⟩
    · push Not at hsound
      obtain ⟨c, rfl, hc, hopen⟩ := hsound
      exact h.step_open hopen hc hres

end Step

/-- The value behind a space leaves room for its NUL in the result. -/
theorem RequestPacket.args_value {payload : List UInt8} {v : CString} (hle : payload.length ≤ 1024)
    (hv : (RequestPacket.args payload).2 = some v) : v.length < resultSize := by
  rw [RequestPacket.args] at hv
  split_ifs at hv
  dsimp only at hv
  have hread : (CString.read payload).bytes.length ≤ payload.length :=
    (List.takeWhile_sublist _).length_le
  cases hchr : (CString.read payload).strchr space with
  | none =>
    rw [hchr] at hv
    cases hv
  | some i =>
    rw [hchr] at hv
    cases hv
    have hi := (List.findIdx?_eq_some_iff_getElem.mp hchr).1
    rw [CString.length, CString.drop, List.length_drop, resultSize]
    omega

/-- What a request asks for. -/
def Scores.taskOf {S : Type*} (P : Scores S) (r : Request) : Task S :=
  P.task r.cmd (RequestPacket.args r.data).1 (RequestPacket.args r.data).2

section Requests

variable {ι S : Type*} [LinearOrder S] {P : Scores S} {cfg : ServerConfig} {s s' : Store S}
  {Q : Shelf S} {r : Request} {t : List UInt8} {h : List (Served ι Request (List UInt8))}

/-- The system grants whatever memory a request asks for. -/
def GrantsAll (s : Store S) (sys : ℕ × Host) : Prop := Grants s sys.2 ∧ GrantsMember s sys

variable (P) in
def ShelfAnswers (Q : Shelf S) (r : Request) (t : List UInt8) (Q' : Shelf S) : Prop :=
  ShelfSpec P Q (P.taskOf r) t Q'

variable [Zero S]

theorem Store.Shows.replays (hs : s.Shows Q) (hrun : Replays (Handles P cfg GrantsAll) s h s') :
    ∃ Q', Replays (ShelfAnswers P) Q h Q' ∧ s'.Shows Q' := by
  apply Runs.refines (fun (s : Store S) Q => s.Shows Q) hrun hs
  rintro r t - s Q s' hs ⟨sys, ⟨hw, hmember⟩, hres⟩
  exact hs.step hw hmember (fun v => RequestPacket.args_value r.data_le) hres

omit [LinearOrder S] [Zero S] in
/-- A save comes back when its file does not open. -/
theorem runSave_isSome {w : Host} (hopens : w.save.opens = false) : (runSave w s cfg).isSome := by
  have hsave : (kvsRdbSave cfg.rdb w.save s.toEngines s.files cfg.rdbFile).isSome := by
    simp only [kvsRdbSave, hopens]
    cases cfg.rdb.rdbEnabled with
    | false => rfl
    | true => rfl
  obtain ⟨r, hr⟩ := Option.isSome_iff_exists.mp hsave
  rw [runSave, hr]
  rfl

/-- There is a system that a request comes back from, unless its key has no slot or it asks for an
array that is no map. -/
theorem Store.Shows.comes_back (P : Scores S) (cfg : ServerConfig) (hs : s.Shows Q) {p : Ptr}
    (hp : s.skiptable.Fresh p) (hrange : (P.taskOf r).InTable)
    (hsound : r.OnArray → Q.array = .sound) :
    ∃ sys, GrantsAll s sys ∧ (r.packet.result P cfg sys s).isSome := by
  obtain ⟨q, hq⟩ := (hs.keeps .tree nofun).1.exists_free
  let w : Host := ⟨⟨true, true⟩, ⟨some q, true, true⟩, ⟨true, true, true⟩, p, 0,
    { roomyHost.save with opens := false }⟩
  have hw : Grants s w := ⟨rfl, ⟨q, rfl, hq⟩, rfl⟩
  have hmember : ∀ n, GrantsMember s (n, w) := fun n => ⟨hp, Nat.zero_le _⟩
  by_cases hsave : r.cmd = some .save
  · refine ⟨(0, w), ⟨hw, hmember 0⟩, ?_⟩
    have hcmd : Cmd.ofCode r.packet.cmdType = some .save := hsave
    rw [RequestPacket.result, hcmd]
    exact runSave_isSome rfl
  · obtain ⟨t, s', Q', ⟨n, hn⟩, -⟩ := hs.complies P cfg hw (hmember 0)
      (fun v => RequestPacket.args_value r.data_le) hsave (fun c hc ho => hsound ⟨c, hc, ho⟩) hrange
    refine ⟨(n, w), ⟨hw, hmember n⟩, ?_⟩
    have hback : r.packet.result P cfg (n, w) s = some (t, s') := hn n le_rfl
    rw [hback]
    rfl

end Requests

section Network

variable {ι S : Type*} [DecidableEq ι] [LinearOrder S] [Zero S] {P : Scores S}
  {cfg : ServerConfig} {s₀ : Store S} {programs : ι → List Request} {σ : Network ι S}
  {es : List (Network.Event ι)}

/-- Any number of clients with any requests, on a server that was just started and gets the memory
that it asks for: in every run there is one history of all requests, and its answers are those of
three maps and one sorted set; the array is a map until a `DEL` has found its key or a request has kept
its mutex. When nothing can happen any more, every request has its answer, or the next one of some
client has a key without a slot in the hash engine, or asks for the array behind such a request. -/
theorem Network.serves_shelf {T : Rbtree} {p q : Ptr} {nodes : Ptr → Option (SkipNode S)}
    (hp : p ≠ null) (hq : q ≠ null) (harray : s₀.array = kvsArrayCreate)
    (htree : s₀.rbtree = kvsRbtreeCreate T p) (hhash : s₀.hash = kvsHashCreate fun _ => some [])
    (hlist : s₀.skiptable = kvsSkiptableCreate nodes q)
    (hrun : Drives (Network.Steps P cfg GrantsAll) (.start s₀ programs) es σ) :
    ∃ h Q, σ.Linear P cfg GrantsAll s₀ programs h ∧ Replays (ShelfAnswers P) .empty h Q ∧
      σ.store.Shows Q ∧
      ((∃ p', σ.store.skiptable.Fresh p') → (∀ e σ', ¬ σ.Steps P cfg GrantsAll e σ') →
        (∀ i, (σ.conns i).client.responses.length = (programs i).length ∧
          (σ.conns i).reader.closed = true) ∨
        ∃ i r, (programs i)[(σ.conns i).client.responses.length]? = some r ∧
          (¬ (P.taskOf r).InTable ∨ r.OnArray ∧ Q.array ≠ .sound)) := by
  obtain ⟨h, -, hσ⟩ := (Explains.start s₀ programs).run hrun
  obtain ⟨Q, hshelf, hQ⟩ := (Store.Shows.fresh hp hq harray htree hhash hlist).replays hσ.replays
  refine ⟨h, Q, hσ.linear, hshelf, hQ, ?_⟩
  rintro ⟨p', hp'⟩ hstuck
  obtain hall | ⟨i, r, hr, hnone⟩ := hσ.stuck hstuck
  · exact .inl hall
  · refine .inr ⟨i, r, hr, ?_⟩
    by_contra hgood
    push Not at hgood
    obtain ⟨hrange, hsound⟩ := hgood
    obtain ⟨sys, hw, hback⟩ := hQ.comes_back P cfg hp' hrange hsound
    rw [hnone sys hw] at hback
    cases hback

end Network

/-- A request with this payload. -/
def commandRequest (c : Cmd) (data : List UInt8) (h : data.length ≤ 1024) : Request :=
  ⟨.ofNat c.code, 0, data, h⟩

def setA : Request := commandRequest .set [97, 32, 98] (Nat.le_of_ble_eq_true rfl)
def getA : Request := commandRequest .get [97] (Nat.le_of_ble_eq_true rfl)
def delA : Request := commandRequest .del [97] (Nat.le_of_ble_eq_true rfl)
def hgetA : Request := commandRequest .hget [97] (Nat.le_of_ble_eq_true rfl)

/-- One client uses the array and adds a member to the set, the other one sets the same key, lists the
set, asks the hash engine and sends a `GET` without a key. -/
def shelfPrograms : Fin 2 → List Request
  | 0 => [setA, getA, zaddLetter 98 50, delA]
  | 1 => [setA, zrangeAll, hgetA, bareGet]

/-- The second `SET` finds the key, and the `GET` without a key comes last. -/
def shelfCalls : List (Served (Fin 2) Request (List UInt8)) :=
  [⟨firstClient, setA, okText⟩, ⟨secondClient, setA, existText⟩, ⟨firstClient, getA, [98]⟩,
    ⟨firstClient, zaddLetter 98 50, okText⟩, ⟨secondClient, zrangeAll, rangeLine⟩,
    ⟨secondClient, hgetA, noExistText⟩, ⟨firstClient, delA, okText⟩,
    ⟨secondClient, bareGet, noExistText⟩]

theorem memberHost_grantsAll {s : Store ℕ} {p : Ptr} (hp : p ≠ null)
    (hfree : s.skiptable.nodes p = none) (htree : s.rbtree = kvsRbtreeCreate Rbtree.blank 1) :
    GrantsAll s (memberHost p) := by
  refine ⟨⟨rfl, ⟨2, rfl, ?_⟩, rfl⟩, memberHost_grants hp hfree⟩
  rw [htree]
  exact Rbtree.blank_free

theorem shelfCalls_served : ∃ es σ,
    Drives (Network.Steps oneDigitScores ⟨checkedConfig, .empty⟩ GrantsAll)
      (.start emptyServer shelfPrograms) es σ ∧
    ∀ i, (σ.conns i).client.responses = (callsOf i shelfCalls).map fun c => .ok (servedFrame c) := by
  have hreplay : ∃ s, Replays (Handles oneDigitScores ⟨checkedConfig, .empty⟩ GrantsAll)
      emptyServer shelfCalls s := by
    refine ⟨_, .cons (.of_answer (memberHost 2) (memberHost_grantsAll (by decide) rfl rfl) ?_)
      (.cons (.of_answer (memberHost 2) (memberHost_grantsAll (by decide) rfl rfl) ?_)
      (.cons (.of_answer (memberHost 2) (memberHost_grantsAll (by decide) rfl rfl) ?_)
      (.cons (.of_answer (memberHost 2) (memberHost_grantsAll (by decide) rfl rfl) ?_)
      (.cons (.of_answer (memberHost 3) (memberHost_grantsAll (by decide) rfl rfl) ?_)
      (.cons (.of_answer (memberHost 3) (memberHost_grantsAll (by decide) rfl rfl) ?_)
      (.cons (.of_answer (memberHost 3) (memberHost_grantsAll (by decide) rfl rfl) ?_)
      (.cons (.of_answer (memberHost 3) (memberHost_grantsAll (by decide) rfl rfl) ?_)
      (.nil _))))))))⟩
    all_goals decide +kernel
  obtain ⟨s, hreplay⟩ := hreplay
  obtain ⟨es, σ, hrun, -, hrests⟩ := Network.realizes shelfPrograms hreplay
    (Fin.forall_fin_two.mpr ⟨List.prefix_rfl, List.prefix_rfl⟩)
  exact ⟨es, σ, hrun, fun i => by rw [(hrests i).client]⟩

theorem Network.serves_shelf_letter : ∃ es, ∃ σ : Network (Fin 2) ℕ, ∃ h, ∃ Q : Shelf ℕ,
    Drives (Network.Steps oneDigitScores ⟨checkedConfig, .empty⟩ GrantsAll)
      (.start emptyServer shelfPrograms) es σ ∧
    (∀ i, (σ.conns i).client.responses =
      (callsOf i shelfCalls).map fun c => .ok (servedFrame c)) ∧
    σ.Linear oneDigitScores ⟨checkedConfig, .empty⟩ GrantsAll emptyServer shelfPrograms h ∧
    Replays (ShelfAnswers oneDigitScores) .empty h Q ∧ σ.store.Shows Q := by
  obtain ⟨es, σ, hrun, hresponses⟩ := shelfCalls_served
  obtain ⟨h, Q, hlinear, hshelf, hQ, -⟩ := Network.serves_shelf (T := Rbtree.blank) (p := 1) (q := 9)
    (by decide) (by decide) rfl rfl rfl rfl hrun
  exact ⟨es, σ, h, Q, hrun, hresponses, hlinear, hshelf, hQ⟩

end KvStore
