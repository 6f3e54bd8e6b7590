import KvStore.Lib.Guarded
import KvStore.Protocol.Payload
import KvStore.Rdb.Failure

/-! Which requests leave the mutex of the array held: those whose payload makes an argument
`NULL` that `kvs_array_get`, `kvs_array_del` or `kvs_array_mod` checks only after taking it. -/
namespace KvStore
open Guarded

namespace KvsArray

/-- Whenever the call comes back, the mutex is free. -/
def Frees {β : Type*} (x : Option (β × KvsArray)) : Prop := ∀ r, x = some r → r.2.locked = false

section Frees

variable {α β : Type*} {x y : Option (β × KvsArray)} {f : α → Option (β × KvsArray)} {o : Option α}

theorem Frees.none : Frees (Option.none : Option (β × KvsArray)) := by
  intro r h
  cases h

theorem Frees.unlock (b : β) (a : KvsArray) : Frees (some (b, a.unlock)) := by
  intro r h
  cases h
  rfl

theorem Frees.bind (h : ∀ z, Frees (f z)) : Frees (o.bind f) := by
  intro r hr
  obtain ⟨z, -, hz⟩ := Option.bind_eq_some_iff.mp hr
  exact h z r hz

theorem Frees.ite {p : Prop} [Decidable p] (hx : Frees x) (hy : Frees y) :
    Frees (if p then x else y) := by
  split
  · exact hx
  · exact hy

end Frees

variable {a : KvsArray} (m : ArrayAlloc) (b : Bool) (k v : CString)

theorem kvsArraySet_frees (k v : Option CString) : Frees (kvsArraySet a m k v) := by
  apply Frees.bind
  intro a
  cases k with
  | none => exact .unlock _ a
  | some k =>
    cases v with
    | none => exact .unlock _ a
    | some v =>
      apply Frees.ite (.unlock _ a)
      apply Frees.bind
      intro found
      cases found with
      | some i => exact .unlock _ a
      | none =>
        apply Frees.ite (.unlock _ a)
        apply Frees.ite (.unlock _ a)
        apply Frees.bind
        intro hole
        cases hole with
        | some i => exact .unlock _ _
        | none => exact .ite (.unlock _ _) (.unlock _ a)

theorem kvsArrayGet_frees : Frees (kvsArrayGet a (some k)) := by
  apply Frees.bind
  intro a
  apply Frees.bind
  intro found
  cases found with
  | some i => exact .unlock _ a
  | none => exact .unlock _ a

theorem kvsArrayDel_frees : Frees (kvsArrayDel a (some k)) := by
  apply Frees.bind
  intro a
  apply Frees.bind
  intro found
  cases found with
  | some i =>
    apply Frees.ite .none
    exact .ite (.unlock _ _) (.unlock _ _)
  | none => exact .unlock _ a

theorem kvsArrayMod_frees : Frees (kvsArrayMod a b (some k) (some v)) := by
  apply Frees.bind
  intro a
  apply Frees.ite (.unlock _ a)
  apply Frees.bind
  intro found
  cases found with
  | some i =>
    apply Frees.ite .none
    exact .ite (.unlock _ _) (.unlock _ _)
  | none => exact .unlock _ a

theorem kvsArrayExist_frees (k : Option CString) : Frees (kvsArrayExist a k) := by
  apply Frees.bind
  intro a
  cases k with
  | none => exact .unlock _ a
  | some k =>
    apply Frees.bind
    intro found
    cases found with
    | some i => exact .unlock _ a
    | none => exact .unlock _ a

end KvsArray

open KvsArray

section Requests

variable {S : Type*} [Comparisons S] {P : Scores S} {cfg : ServerConfig} {n : ℕ} {w : Host}
  {s s' : Store S} {t : List UInt8} {cmd : Option Cmd} {key value : Option CString}

/-- The command takes the mutex and returns at the check of its arguments. -/
def LeavesLocked (cmd : Option Cmd) (key value : Option CString) : Prop :=
  (key = none ∧ (cmd = some .get ∨ cmd = some .del ∨ cmd = some .mod)) ∨
  (value = none ∧ cmd = some .mod)

/-- The commands on the array. -/
def Cmd.onArray : Cmd → Bool
  | set => true
  | get => true
  | del => true
  | mod => true
  | exist => true
  | _ => false

/-- Any other command leaves the array as it is. -/
theorem runCommand_array (hcmd : ∀ c, cmd = some c → c.onArray = false)
    (h : runCommand P n w s cfg cmd key value = some (t, s')) : s'.array = s.array := by
  cases cmd with
  | none =>
    cases h
    rfl
  | some c =>
    have hc := hcmd c rfl
    cases c with
    | set => cases hc
    | get => cases hc
    | del => cases hc
    | mod => cases hc
    | exist => cases hc
    | rset =>
      obtain ⟨r, -, h⟩ := Option.bind_eq_some_iff.mp h
      cases h
      rfl
    | hset =>
      obtain ⟨r, -, h⟩ := Option.bind_eq_some_iff.mp h
      cases h
      rfl
    | rget =>
      obtain ⟨v, -, h⟩ := Option.bind_eq_some_iff.mp h
      obtain ⟨result, -, h⟩ := Option.bind_eq_some_iff.mp h
      cases h
      rfl
    | hget =>
      obtain ⟨v, -, h⟩ := Option.bind_eq_some_iff.mp h
      obtain ⟨result, -, h⟩ := Option.bind_eq_some_iff.mp h
      cases h
      rfl
    | save =>
      obtain ⟨r, -, h⟩ := Option.bind_eq_some_iff.mp h
      cases h
      rfl
    | zadd =>
      simp only [runCommand, runZadd] at h
      split at h
      · split at h
        · cases h
          rfl
        · obtain ⟨r, -, h⟩ := Option.bind_eq_some_iff.mp h
          cases h
          rfl
      · cases h
        rfl
    | zrem =>
      simp only [runCommand, runZrem] at h
      split at h
      · cases h
        rfl
      · obtain ⟨r, -, h⟩ := Option.bind_eq_some_iff.mp h
        cases h
        rfl
    | zrange =>
      simp only [runCommand, runZrange] at h
      split at h
      · split at h
        · cases h
          rfl
        · obtain ⟨r, -, h⟩ := Option.bind_eq_some_iff.mp h
          cases h
          rfl
      · cases h
        rfl
    | rdel => cases h; rfl
    | rmod => cases h; rfl
    | rexist => cases h; rfl
    | hdel => cases h; rfl
    | hmod => cases h; rfl
    | hexist => cases h; rfl

/-- A command on the array waits for the mutex. -/
theorem runCommand_waits {c : Cmd} (hs : s.array.locked = true) (hc : c.onArray = true) :
    runCommand P n w s cfg (some c) key value = none := by
  have hlock : s.array.lock = none := by simp [KvsArray.lock, hs]
  cases c with
  | set => simp [runCommand, kvsArraySet, hlock]
  | get => simp [runCommand, kvsArrayGet, hlock]
  | del => simp [runCommand, kvsArrayDel, hlock]
  | mod => simp [runCommand, kvsArrayMod, hlock]
  | exist => simp [runCommand, kvsArrayExist, hlock]
  | _ => cases hc

theorem runCommand_unlocked (hs : s.array.locked = false) (hno : ¬ LeavesLocked cmd key value)
    (h : runCommand P n w s cfg cmd key value = some (t, s')) : s'.array.locked = false := by
  by_cases harray : ∃ c, cmd = some c ∧ c.onArray = true
  · obtain ⟨c, rfl, hc⟩ := harray
    obtain ⟨k, rfl⟩ | hk : (∃ k, key = some k) ∨ key = none := by
      cases key with
      | none => exact .inr rfl
      | some k => exact .inl ⟨k, rfl⟩
    · cases c with
      | set =>
        obtain ⟨r, hr, h⟩ := Option.bind_eq_some_iff.mp h
        cases h
        exact kvsArraySet_frees _ _ _ r hr
      | get =>
        obtain ⟨r, hr, h⟩ := Option.bind_eq_some_iff.mp h
        obtain ⟨result, -, h⟩ := Option.bind_eq_some_iff.mp h
        cases h
        exact kvsArrayGet_frees k r hr
      | del =>
        obtain ⟨r, hr, h⟩ := Option.bind_eq_some_iff.mp h
        cases h
        exact kvsArrayDel_frees k r hr
      | mod =>
        cases value with
        | none => exact absurd (.inr ⟨rfl, rfl⟩) hno
        | some v =>
          obtain ⟨r, hr, h⟩ := Option.bind_eq_some_iff.mp h
          cases h
          exact kvsArrayMod_frees _ k v r hr
      | exist =>
        obtain ⟨r, hr, h⟩ := Option.bind_eq_some_iff.mp h
        cases h
        exact kvsArrayExist_frees _ r hr
      | _ => cases hc
    · subst hk
      cases c with
      | set =>
        obtain ⟨r, hr, h⟩ := Option.bind_eq_some_iff.mp h
        cases h
        exact kvsArraySet_frees _ _ _ r hr
      | exist =>
        obtain ⟨r, hr, h⟩ := Option.bind_eq_some_iff.mp h
        cases h
        exact kvsArrayExist_frees _ r hr
      | get => exact absurd (.inl ⟨rfl, .inl rfl⟩) hno
      | del => exact absurd (.inl ⟨rfl, .inr (.inl rfl)⟩) hno
      | mod => exact absurd (.inl ⟨rfl, .inr (.inr rfl)⟩) hno
      | _ => cases hc
  · rw [runCommand_array ?_ h]
    · exact hs
    · intro c hc
      cases ho : c.onArray with
      | false => rfl
      | true => exact absurd ⟨c, hc, ho⟩ harray

/-- The command comes back at the check, with the mutex held. -/
theorem runCommand_locked (hs : s.array.locked = false) (hl : LeavesLocked cmd key value) :
    ∃ t s', runCommand P n w s cfg cmd key value = some (t, s') ∧ s'.array.locked = true := by
  have hlock : s.array.lock = some { s.array with locked := true } := by simp [lock, hs]
  obtain ⟨rfl, rfl | rfl | rfl⟩ | ⟨rfl, rfl⟩ := hl
  · refine ⟨noExistText, { s with array := { s.array with locked := true } }, ?_, rfl⟩
    simp [runCommand, kvsArrayGet, hlock, getText]
  · refine ⟨errorText, { s with array := { s.array with locked := true } }, ?_, rfl⟩
    simp [runCommand, kvsArrayDel, hlock, retText]
  · refine ⟨errorText, { s with array := { s.array with locked := true } }, ?_, rfl⟩
    simp [runCommand, kvsArrayMod, hlock, retText]
  · refine ⟨errorText, { s with array := { s.array with locked := true } }, ?_, rfl⟩
    cases key <;> simp [runCommand, kvsArrayMod, hlock, retText]

/-- One call of the handler: the buffer with the bytes received, what the system answers, and a
bound on the rounds of the loops. -/
structure Received where
  rounds : ℕ
  host : Host
  buffer : List UInt8
  len : ℕ

/-- The handler as a machine over the store. -/
def serve (P : Scores S) (cfg : ServerConfig) (s : Store S) (q : Received) :
    Option (Handled S × Store S) :=
  (kvsTcpProtocol P cfg q.rounds q.host s q.buffer q.len).map fun r => (r, r.store)

/-- A valid packet that asks for `GET`, `DEL` or `MOD` without a payload, or for `MOD` with a
payload that has no space before its first NUL. -/
def Received.Locks (q : Received) : Prop :=
  let header := TcpHeader.read q.buffer
  let cmd := Cmd.ofCode header.cmdType
  let data := CString.read ((q.buffer.drop tcpHeaderSize).take header.dataLen)
  Accepted q.buffer q.len ∧
  (header.dataLen = 0 ∧ (cmd = some .get ∨ cmd = some .del ∨ cmd = some .mod) ∨
   0 < header.dataLen ∧ tcpHeaderSize + header.dataLen < q.buffer.length ∧
     cmd = some .mod ∧ data.strchr space = none)

/-- What the handler's parsing makes of such a packet. -/
theorem Received.locks_iff {q : Received} (h : Accepted q.buffer q.len) :
    q.Locks ↔ ∃ p, splitPayload q.buffer (TcpHeader.read q.buffer).dataLen = some p ∧
      LeavesLocked (Cmd.ofCode (TcpHeader.read q.buffer).cmdType) p.key p.value := by
  simp only [Locks, h, true_and]
  by_cases hzero : (TcpHeader.read q.buffer).dataLen = 0
  · simp only [hzero, splitPayload, if_true, true_and, lt_irrefl, false_and, or_false,
      Option.some.injEq, exists_eq_left', LeavesLocked]
    tauto
  · have hpos : 0 < (TcpHeader.read q.buffer).dataLen := Nat.pos_of_ne_zero hzero
    by_cases hlen : tcpHeaderSize + (TcpHeader.read q.buffer).dataLen < q.buffer.length
    · rw [splitPayload_eq hpos hlen]
      simp only [hzero, false_and, hpos, hlen, true_and, false_or]
      cases (CString.read ((q.buffer.drop tcpHeaderSize).take
          (TcpHeader.read q.buffer).dataLen)).strchr space with
      | none => simp [LeavesLocked]
      | some i => simp [LeavesLocked]
    · have hnone : splitPayload q.buffer (TcpHeader.read q.buffer).dataLen = none := by
        rw [splitPayload, if_neg hzero, if_pos (by omega)]
      simp [hnone, hzero, hlen]

theorem serve_locked {q : Received} (hs : s.array.locked = false) (hl : q.Locks) :
    ∃ r s', serve P cfg s q = some (r, s') ∧ s'.array.locked = true := by
  obtain ⟨p, hp, hl'⟩ := (Received.locks_iff hl.1).mp hl
  have hrun : ∃ t s', runCommand P q.rounds q.host s cfg
      (Cmd.ofCode (TcpHeader.read q.buffer).cmdType) p.key p.value = some (t, s') ∧
        s'.array.locked = true := runCommand_locked hs hl'
  obtain ⟨t, s', hrun, hlocked⟩ := hrun
  obtain ⟨r, hr, rfl⟩ : ∃ r : Handled S,
      kvsTcpProtocol P cfg q.rounds q.host s q.buffer q.len = some r ∧ r.store = s' := by
    rw [hl.1.kvsTcpProtocol, hp, Option.bind_some, hrun]
    exact ⟨_, rfl, rfl⟩
  exact ⟨r, r.store, by rw [serve, hr]; rfl, hlocked⟩

theorem serve_unlocked {q : Received} {r : Handled S} (hs : s.array.locked = false)
    (hno : ¬ q.Locks) (h : serve P cfg s q = some (r, s')) : s'.array.locked = false := by
  obtain ⟨r, hr, he⟩ := Option.map_eq_some_iff.mp h
  cases he
  by_cases ha : Accepted q.buffer q.len
  · rw [ha.kvsTcpProtocol] at hr
    obtain ⟨p, hp, hr⟩ := Option.bind_eq_some_iff.mp hr
    obtain ⟨r', hr', hr⟩ := Option.bind_eq_some_iff.mp hr
    cases hr
    exact runCommand_unlocked hs (fun hl => hno ((Received.locks_iff ha).mpr ⟨p, hp, hl⟩)) hr'
  · rw [kvsTcpProtocol_rejected ha hr]
    exact hs

/-- In every run of requests the mutex is free behind each of them that comes back exactly when
no packet makes a `NULL` argument that is checked too late. -/
theorem kvsTcpProtocol_unlocked_iff (P : Scores S) (cfg : ServerConfig) (s : Store S)
    (hs : s.array.locked = false) (qs : List Received) :
    Whenever (serve P cfg) (fun _ _ _ s' => s'.array.locked = false) s qs ↔
      Allowed (serve P cfg) (fun _ q => ¬ q.Locks) s qs := by
  refine whenever_iff (J := fun s => s.array.locked = false) ?_ ?_ hs qs
  · intro s q r s' hs hno hr
    have hfree := serve_unlocked hs hno hr
    exact ⟨hfree, hfree⟩
  · intro s q hs hl
    obtain ⟨r, s', hr, hlocked⟩ := serve_locked (P := P) hs (not_not.mp hl)
    exact ⟨r, s', hr, by simp [hlocked]⟩

end Requests

/-- The store at start-up, with scores that are never read. -/
def freshStore : Store ℕ := ⟨freshEngines, ⟨0, 0, 0, fun _ => none⟩, fun _ => none⟩

def plainScores : Scores ℕ := ⟨fun _ => 0, fun _ => none, fun _ => .empty⟩

def roomyHost : Host := ⟨⟨true, true⟩, ⟨some 2, true, true⟩, ⟨true, true, true⟩, 1, 0, readyIO⟩

/-- A packet of 24 bytes: a command without payload. -/
def bareRequest (c : Cmd) : Received := ⟨0, roomyHost, packet c.code 0 0 [], tcpHeaderSize⟩

theorem bareRequest_accepted (c : Cmd) : Accepted (bareRequest c).buffer (bareRequest c).len := by
  cases c <;> exact ⟨by decide, by decide, by decide, by decide⟩

theorem kvsTcpProtocol_unlocked_iff_exist :
    freshStore.array.locked = false ∧
    Whenever (serve plainScores ⟨checkedConfig, .empty⟩) (fun _ _ _ s' => s'.array.locked = false)
      freshStore [bareRequest .exist] := by
  refine ⟨rfl, (kvsTcpProtocol_unlocked_iff _ _ _ rfl _).mpr ⟨?_, fun _ _ _ => trivial⟩⟩
  rintro ⟨-, ⟨-, h⟩ | ⟨h, -⟩⟩
  · revert h
    decide
  · revert h
    decide

/-- A `GET` without payload is answered with the mutex held. -/
theorem kvsTcpProtocol_get_locks :
    ¬ Whenever (serve plainScores ⟨checkedConfig, .empty⟩) (fun _ _ _ s' => s'.array.locked = false)
      freshStore [bareRequest .get] := by
  intro h
  have hl : (bareRequest .get).Locks := ⟨bareRequest_accepted .get, .inl ⟨by decide, .inl (by decide)⟩⟩
  have hrun : ∃ r s', serve plainScores ⟨checkedConfig, .empty⟩ freshStore (bareRequest .get) =
      some (r, s') ∧ s'.array.locked = true := serve_locked rfl hl
  obtain ⟨r, s', hr, hlocked⟩ := hrun
  rw [(h r s' hr).1] at hlocked
  cases hlocked

end KvStore
