import KvStore.Protocol.Growing
import KvStore.Protocol.Mutex
import KvStore.Skip.SortedSet

/-! `ZADD`, `ZREM` and `ZRANGE`, with whatever arguments, on the sorted set that the skip list keeps. -/
namespace KvStore
open Fuel SkipList

/-- What a command asks of the sorted set. -/
inductive SetCall (S : Type*)
  | zadd (member value : CString) (score : S)
  | zrem (member : CString)
  | zrange (min max : S)
  | refused

namespace Scores

variable {S : Type*} (P : Scores S)

/-- The score stands behind the space in the value. -/
def zaddCall : Option CString → Option CString → SetCall S
  | some key, some value =>
    match value.strchr space with
    | none => .refused
    | some i => .zadd key (value.truncate i) (P.atof (.read (value.bytes.drop (i + 1))))
  | _, _ => .refused

def zremCall : Option CString → SetCall S
  | none => .refused
  | some key => .zrem key

def zrangeCall : Option CString → Option CString → SetCall S
  | some _, some value =>
    match P.sscanf value with
    | none => .refused
    | some (min, max) => .zrange min max
  | _, _ => .refused

/-- The call of a command with its arguments, if it is one on the set. -/
def call (cmd : Option Cmd) (key value : Option CString) : Option (SetCall S) :=
  match cmd with
  | some .zadd => some (P.zaddCall key value)
  | some .zrem => some (zremCall key)
  | some .zrange => some (P.zrangeCall key value)
  | _ => none

end Scores

variable {S : Type*} [LinearOrder S]

/-- What a call does to a sorted set, and the text that it is answered with. A member that is there
can be missed. -/
inductive SetSpec (P : Scores S) : SortedSet S → SetCall S → List UInt8 → SortedSet S → Prop
  | zadd (M : SortedSet S) (member value : CString) (score : S) :
    SetSpec P M (.zadd member value score)
      (if (M.lookup (toLex (score, member))).isSome then existText else okText)
      (M.insert (toLex (score, member)) value)
  | removed {M : SortedSet S} {member : CString} {score : S}
    (h : (M.lookup (toLex (score, member))).isSome) :
    SetSpec P M (.zrem member) okText (M.erase (toLex (score, member)))
  | missed {M : SortedSet S} {member : CString} (h : ¬ M.Ascends member) :
    SetSpec P M (.zrem member) noExistText M
  | zrange (M : SortedSet S) (min max : S) :
    SetSpec P M (.zrange min max) (zrangeText P (M.range min max 100) []) M
  | refused (M : SortedSet S) : SetSpec P M .refused errorText M

/-- A command on the set, or another one that the set knows nothing of. -/
inductive SetStep (P : Scores S) :
    SortedSet S → Option (SetCall S) → List UInt8 → SortedSet S → Prop
  | call {M M' : SortedSet S} {c : SetCall S} {t : List UInt8} (h : SetSpec P M c t M') :
    SetStep P M (some c) t M'
  | other (M : SortedSet S) (t : List UInt8) : SetStep P M none t M

variable {P : Scores S} {cfg : ServerConfig} {n : ℕ} {w : Host} {s s' : Store S} {t : List UInt8}
  {cmd : Option Cmd} {key value : Option CString} {M : SortedSet S}

/-- Any other command leaves the skip list as it is. -/
theorem runCommand_skiptable (hcall : P.call cmd key value = none)
    (h : runCommand P n w s cfg cmd key value = some (t, s')) : s'.skiptable = s.skiptable := by
  cases cmd with
  | none =>
    cases h
    rfl
  | some c =>
    cases c with
    | zadd | zrem | zrange => cases hcall
    | set | del | mod | exist | rset | hset | save =>
      obtain ⟨r, -, h⟩ := Option.bind_eq_some_iff.mp h
      cases h
      rfl
    | get | rget | hget =>
      obtain ⟨r, -, h⟩ := Option.bind_eq_some_iff.mp h
      obtain ⟨result, -, h⟩ := Option.bind_eq_some_iff.mp h
      cases h
      rfl
    | rdel | rmod | rexist | hdel | hmod | hexist =>
      cases h
      rfl

/-- The block for a new member is free, and its level at most the highest. -/
def GrantsMember (s : Store S) (sys : ℕ × Host) : Prop :=
  s.skiptable.Fresh sys.2.member ∧ sys.2.level ≤ skipMaxLevel

section Calls

variable [Zero S]

/-- The command comes back as the set says. -/
def Obeys (P : Scores S) (M : SortedSet S) (c : SetCall S) (f : ℕ → Option (List UInt8 × Store S)) :
    Prop :=
  ∃ t s' M', Returns f (t, s') ∧ SetSpec P M c t M' ∧ s'.skiptable.Stands M'

theorem Obeys.refused {f : ℕ → Option (List UInt8 × Store S)} (hM : s.skiptable.Stands M)
    (h : ∀ n, f n = some (errorText, s)) : Obeys P M .refused f :=
  ⟨errorText, s, M, .of_eq h, .refused M, hM⟩

theorem SkipList.Stands.runZadd (hM : s.skiptable.Stands M) (hw : GrantsMember s (n, w))
    (key value : Option CString) :
    Obeys P M (P.zaddCall key value) fun n => KvStore.runZadd P n w s key value := by
  cases key with
  | none => exact .refused hM fun n => rfl
  | some key =>
    cases value with
    | none => exact .refused hM fun n => rfl
    | some value =>
      cases hi : value.strchr space with
      | none =>
        rw [Scores.zaddCall, hi]
        exact .refused hM fun n => by rw [KvStore.runZadd, hi]
      | some i =>
        obtain ⟨hp, hlevel⟩ := hw
        obtain ⟨L', hret, hL'⟩ := hM.zadd hp hlevel key (value.truncate i)
          (P.atof (.read (value.bytes.drop (i + 1))))
        have hrun := hret.bind (g := fun r _ => some (retText r.1 existText,
          { s with skiptable := r.2 })) (.some _)
        rw [Scores.zaddCall, hi]
        refine ⟨_, { s with skiptable := L' }, _, hrun.congr fun n => ?_, ?_, hL'⟩
        · rw [KvStore.runZadd, hi]
        · have htext : ∀ b : Bool, retText (if b then 1 else 0) existText =
              if b then existText else okText := by
            intro b
            cases b with
            | false => rfl
            | true => rfl
          rw [htext]
          exact .zadd M key _ _

theorem SkipList.Stands.runZrem (hM : s.skiptable.Stands M) (key : Option CString) :
    Obeys P M (Scores.zremCall key) fun n => KvStore.runZrem n s key := by
  cases key with
  | none => exact .refused hM fun n => rfl
  | some key =>
    obtain ⟨score, L', hthere, hL', hret⟩ | ⟨hno, hret⟩ := hM.zrem key
    · refine ⟨okText, { s with skiptable := L' }, _, ?_, .removed hthere, hL'⟩
      exact hret.bind (g := fun r _ => some (if r.1 = 0 then okText else noExistText,
        { s with skiptable := r.2 })) (.some _)
    · refine ⟨noExistText, s, M, ?_, .missed hno, hM⟩
      exact hret.bind (g := fun r _ => some (if r.1 = 0 then okText else noExistText,
        { s with skiptable := r.2 })) (.some _)

theorem SkipList.Stands.runZrange (hM : s.skiptable.Stands M) (key value : Option CString) :
    Obeys P M (P.zrangeCall key value) fun n => KvStore.runZrange P n s key value := by
  cases key with
  | none => exact .refused hM fun n => rfl
  | some key =>
    cases value with
    | none => exact .refused hM fun n => rfl
    | some value =>
      cases hrange : P.sscanf value with
      | none =>
        rw [Scores.zrangeCall, hrange]
        exact .refused hM fun n => by rw [KvStore.runZrange, hrange]
      | some r =>
        obtain ⟨min, max⟩ := r
        have hrun := (hM.zrange min max 100).bind (g := fun entries _ =>
          some (zrangeText P entries [], s)) (.some _)
        rw [Scores.zrangeCall, hrange]
        refine ⟨_, s, M, hrun.congr fun n => ?_, .zrange M min max, hM⟩
        rw [KvStore.runZrange, hrange]

/-- A command on the set comes back, as the set says. -/
theorem SkipList.Stands.runCommand (hM : s.skiptable.Stands M) (hw : GrantsMember s (n, w))
    {c : SetCall S} (hcall : P.call cmd key value = some c) :
    Obeys P M c fun n => KvStore.runCommand P n w s cfg cmd key value := by
  cases cmd with
  | none => cases hcall
  | some x =>
    cases x with
    | zadd =>
      cases hcall
      exact hM.runZadd hw key value
    | zrem =>
      cases hcall
      exact hM.runZrem key
    | zrange =>
      cases hcall
      exact hM.runZrange key value
    | _ => cases hcall

end Calls

/-- Every command that comes back takes the set from one state to the next. -/
theorem SkipList.Stands.step [Zero S] (hM : s.skiptable.Stands M) (hw : GrantsMember s (n, w))
    (h : KvStore.runCommand P n w s cfg cmd key value = some (t, s')) :
    ∃ M', SetStep P M (P.call cmd key value) t M' ∧ s'.skiptable.Stands M' := by
  cases hcall : P.call cmd key value with
  | none =>
    refine ⟨M, .other M t, ?_⟩
    rwa [runCommand_skiptable hcall h]
  | some c =>
    have hobeys : Obeys P M c fun n => KvStore.runCommand P n w s cfg cmd key value :=
      hM.runCommand hw hcall
    obtain ⟨t₁, s₁, M', hret, hspec, hM'⟩ := hobeys
    have heq := ((runCommand_growing P cfg w s cmd key value).returns h).unique hret
    simp only [Prod.mk.injEq] at heq
    obtain ⟨rfl, rfl⟩ := heq
    exact ⟨M', .call hspec, hM'⟩

end KvStore
