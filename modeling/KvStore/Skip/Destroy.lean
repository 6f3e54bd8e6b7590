import KvStore.Lib.Checkpoint
import KvStore.Skip.Invariant

/-! Taking a skip list down. The memory of its nodes is followed through all calls: behind the
destruction no node is left of those that were ever created. -/
namespace KvStore
open Levels Member Fuel

variable {S : Type*}

/-- The loop of `kvs_skiptable_destory`. -/
def skipDestoryLoop : ℕ → SkipList S → Ptr → Option (SkipList S)
  | 0, _, _ => none
  | n + 1, L, cur =>
    if cur = null then some L
    else (L.read cur 0).bind fun nxt => skipDestoryLoop n (L.setNode cur none) nxt

def kvsSkiptableDestory (n : ℕ) (L : SkipList S) : Option (SkipList S) :=
  (skipDestoryLoop n L L.header).map fun L => { L with header := null, level := 0, length := 0 }

/-- A call that changes the list, with the block and the level that the system chooses. -/
inductive MemberCall (S : Type*)
  | zadd (p : Ptr) (level : ℕ) (key value : CString) (score : S)
  | zrem (key : CString)

namespace SkipList

section Loop

variable {L L' : SkipList S} {u p : Ptr} {ps : List Ptr} {i : ℕ}

/-- A chain that does not lead through a block is not touched by it. -/
theorem Chain.congr (h : L.Chain i u ps) (hL : ∀ q ∈ u :: ps, L'.nodes q = L.nodes q) :
    L'.Chain i u ps := by
  have hread : ∀ q ∈ u :: ps, L'.read q i = L.read q i := by
    intro q hq
    rw [read, read, hL q hq]
  induction ps generalizing u with
  | nil => exact (hread u List.mem_cons_self).trans h
  | cons q qs ih =>
    obtain ⟨hnext, hq, hrest⟩ := h
    refine ⟨(hread u List.mem_cons_self).trans hnext, hq, ih hrest ?_ ?_⟩
    · exact fun r hr => hL r (List.mem_cons_of_mem u hr)
    · exact fun r hr => hread r (List.mem_cons_of_mem u hr)

/-- The loop takes the nodes of the chain and no other. -/
theorem Chain.destory (h : L.Chain 0 u ps) (hu : u ≠ null) (hd : (u :: ps).Nodup) :
    ∃ L', Returns (fun n => skipDestoryLoop n L u) L' ∧
      ∀ q, L'.nodes q = if q ∈ u :: ps then none else L.nodes q := by
  induction ps generalizing L u with
  | nil =>
    have hread : L.read u 0 = some null := h
    refine ⟨L.setNode u none, .succ (g := fun n => skipDestoryLoop n (L.setNode u none) null)
      (fun n => ?_) (.last fun n => rfl), fun q => ?_⟩
    · rw [skipDestoryLoop, if_neg hu, hread, Option.bind_some]
    · by_cases hq : q = u
      · simp [hq]
      · simp [hq]
  | cons p ps ih =>
    obtain ⟨hread, hp, hrest⟩ := h
    obtain ⟨hnot, hd⟩ := List.nodup_cons.mp hd
    have hchain : (L.setNode u none).Chain 0 p ps := by
      apply hrest.congr
      intro q hq
      have hne : q ≠ u := fun he => hnot (he ▸ hq)
      simp [hne]
    obtain ⟨L', hret, hnodes⟩ := ih hchain hp hd
    refine ⟨L', .succ (fun n => ?_) hret, fun q => ?_⟩
    · rw [skipDestoryLoop, if_neg hu, hread, Option.bind_some]
    · rw [hnodes]
      by_cases hq : q = u
      · subst hq
        simp
      · simp [hq]

end Loop

section Runs

variable [LinearOrder S] [Zero S] {L L' : SkipList S} {ns : List (Member S)} {p : Ptr}
  {log : List (MemberCall S × ℤ)} {c : MemberCall S} {r : ℤ}

/-- A call that comes back. `malloc` gives a block that is free. -/
def MemberStep (L : SkipList S) (c : MemberCall S) (r : ℤ) (L' : SkipList S) : Prop :=
  match c with
  | .zadd p level key value score => L.Fresh p ∧ level ≤ skipMaxLevel ∧
    Returns (fun n => kvsSkiptableZadd n L p level key value score) (r, L')
  | .zrem key => Returns (fun n => kvsSkiptableZrem n L key) (r, L')

/-- The blocks that hold a node are those of the header and the members. -/
structure Owns (L : SkipList S) (ns : List (Member S)) : Prop where
  holds : L.Holds ns
  blocks : ∀ q, (L.nodes q).isSome ↔ q ∈ (L.hdr :: ns).map ptr

theorem Owns.create (hp : p ≠ null) :
    (kvsSkiptableCreate (fun _ => none) p : SkipList S).Owns [] := by
  refine ⟨.create _ hp, fun q => ?_⟩
  by_cases hq : q = p
  · simp [kvsSkiptableCreate, createSkipNode, hdr, hq]
  · simp [kvsSkiptableCreate, createSkipNode, hdr, hq]

theorem Owns.step (h : L.Owns ns) (hs : L.MemberStep c r L') : ∃ ns', L'.Owns ns' := by
  cases c with
  | zadd p level key value score =>
    obtain ⟨hp, hlevel, hret⟩ := hs
    obtain ⟨n, hn⟩ := hret
    have hblocks := zadd_blocks (hn n le_rfl)
    obtain ⟨pre, post, L₁, ⟨c, rfl, -, -, hret', hH⟩ | ⟨rfl, -, hret', hH⟩⟩ :=
      h.holds.zadd hp hlevel key value score
    · obtain ⟨rfl, rfl⟩ := Prod.mk.inj (Returns.unique ⟨n, hn⟩ hret')
      obtain ⟨-, hsame⟩ | ⟨hr, -⟩ := hblocks
      · refine ⟨_, hH, fun q => ?_⟩
        rw [hsame.blocks, h.blocks]
        simp [hdr, hsame.header]
      · cases hr
    · obtain ⟨rfl, rfl⟩ := Prod.mk.inj (Returns.unique ⟨n, hn⟩ hret')
      obtain ⟨hr, -⟩ | ⟨-, hheader, hmore⟩ := hblocks
      · cases hr
      · refine ⟨_, hH, fun q => ?_⟩
        rw [hmore, h.blocks]
        simp only [hdr, hheader, List.map_cons, List.map_append, List.mem_cons, List.mem_append]
        tauto
  | zrem key =>
    obtain ⟨n, hn⟩ := hs
    have hblocks := zrem_blocks (hn n le_rfl)
    obtain ⟨pre, post, rfl, -, -, ⟨c, post', L₁, rfl, -, hret', hH, hnone, hnot⟩ | ⟨-, hret'⟩⟩ :=
      h.holds.zrem key
    · obtain ⟨rfl, rfl⟩ := Prod.mk.inj (Returns.unique ⟨n, hn⟩ hret')
      obtain ⟨hr, -⟩ | ⟨-, hheader, p, hp, hless⟩ := hblocks
      · cases hr
      · -- the block that was freed is that of the member
        have hc : c.ptr = p := by
          by_contra hne
          have hin : (L.nodes c.ptr).isSome := (h.blocks c.ptr).mpr (by simp)
          have hsome := (hless c.ptr).mpr ⟨hne, hin⟩
          rw [hnone] at hsome
          cases hsome
        refine ⟨_, hH, fun q => ?_⟩
        rw [hless, h.blocks, ← hc]
        simp only [hdr, hheader, List.map_cons, List.map_append, List.mem_cons, List.mem_append] at hnot ⊢
        constructor
        · rintro ⟨hne, hq⟩
          tauto
        · intro hq
          refine ⟨?_, by tauto⟩
          rintro rfl
          exact hnot hq
    · obtain ⟨rfl, rfl⟩ := Prod.mk.inj (Returns.unique ⟨n, hn⟩ hret')
      exact ⟨_, h⟩

/-- Behind any run of additions and removals in an empty memory, with any levels, the destruction comes
back and leaves the memory empty: it reads no node that is gone, and none that was ever created stays. -/
theorem kvsSkiptableDestory_empties (hp : p ≠ null)
    (hrun : Runs MemberStep (kvsSkiptableCreate (fun _ => none) p) log L) :
    ∃ L', Returns (fun n => kvsSkiptableDestory n L) L' ∧ (∀ q, L'.nodes q = none) ∧
      L'.header = null ∧ L'.level = 0 ∧ L'.length = 0 := by
  obtain ⟨ns, h⟩ : ∃ ns, L.Owns ns := by
    apply hrun.keeps_mem ⟨[], .create hp⟩
    rintro c r - L₁ L₂ ⟨ns, hns⟩ hs
    exact hns.step hs
  have hchain := h.holds.wellFormed.levels 0 (Nat.zero_le _)
  rw [List.filter_eq_self.mpr fun x _ => by simp] at hchain
  have hnull : L.header ≠ null := h.holds.repr.nonnull L.hdr List.mem_cons_self
  obtain ⟨L', hret, hnodes⟩ := hchain.destory hnull h.holds.repr.nodup
  refine ⟨{ L' with header := null, level := 0, length := 0 }, ?_, fun q => ?_, rfl, rfl, rfl⟩
  · have hreset := hret.bind (g := fun L _ => some ({ L with header := null, level := 0, length := 0 } :
      SkipList S)) (.some _)
    exact hreset.congr fun n => Option.map_eq_bind
  · dsimp only
    rw [hnodes]
    split_ifs with hq
    · rfl
    · exact Option.not_isSome_iff_eq_none.mp fun hsome => hq ((h.blocks q).mp hsome)

/-- Two members are added and one is removed. -/
theorem kvsSkiptableDestory_empties_letters : ∃ (log : List (MemberCall ℕ × ℤ)) (L L' : SkipList ℕ),
    Runs MemberStep start log L ∧ Returns (fun n => kvsSkiptableDestory n L) L' ∧
      ∀ q, L'.nodes q = none := by
  obtain ⟨L₁, h₁, hH₁, hf⟩ := first_zadd letterA .empty 1 (Nat.zero_le _)
  obtain ⟨L₂, h₂, hH₂, -⟩ :=
    second_zadd hH₁ hf letterB .empty (show 1 < 2 by decide) (Nat.zero_le _)
  obtain ⟨r, L₃, h₃⟩ : ∃ r L₃, Returns (fun n => kvsSkiptableZrem n L₂ letterA) (r, L₃) := by
    obtain ⟨-, -, -, -, -, ⟨-, -, L₃, -, -, hret, -⟩ | ⟨-, hret⟩⟩ := hH₂.zrem letterA
    · exact ⟨0, L₃, hret⟩
    · exact ⟨-1, L₂, hret⟩
  have hfresh : start.Fresh 2 := fresh_create (by decide) (by decide)
  have hrun : Runs MemberStep start [(.zadd 2 0 letterA .empty 1, 0),
      (.zadd 3 0 letterB .empty 2, 0), (.zrem letterA, r)] L₃ :=
    .cons ⟨hfresh, Nat.zero_le _, h₁⟩ (.cons ⟨hf.1, Nat.zero_le _, h₂⟩ (.cons h₃ (.nil L₃)))
  obtain ⟨L', hret, hnone, -⟩ := kvsSkiptableDestory_empties (by decide) hrun
  exact ⟨_, L₃, L', hrun, hret, hnone⟩

end Runs

end SkipList
end KvStore
