import KvStore.Skip.Invariant

/-! The members of a skip list as a set. The list is ordered by score while `zrem` searches by
key, and `zadd` looks for a key only among the members of one score, so both work as announced
only in some states; here is in which. -/
namespace KvStore
open Levels Member

namespace SkipList

variable {S : Type*} [LinearOrder S] [Zero S] {L L' : SkipList S} {ns : List (Member S)}
  {k : CString}

/-- `kvs_skiptable_zrem` as its declaration announces it: a member with the key is removed, and
without one the list stays as it is. -/
def ZremWorks (L : SkipList S) (ns : List (Member S)) (k : CString) : Prop :=
  ((∃ c ∈ ns, c.key = k) → ∃ pre c post L', ns = pre ++ c :: post ∧ c.key = k ∧
    Fuel.Returns (fun n => kvsSkiptableZrem n L k) (0, L') ∧ L'.WellFormed (pre ++ post)) ∧
  ((∀ c ∈ ns, c.key ≠ k) → Fuel.Returns (fun n => kvsSkiptableZrem n L k) (-1, L))

/-- Some member with the key is not hidden: each earlier member with a key not below `k` is
overtopped between the two, and each later one with a key below `k` is no higher than some node
from this member on to it. -/
def Findable (ns : List (Member S)) (k : CString) : Prop :=
  ∃ pre c post, ns = pre ++ c :: post ∧ c.key = k ∧
    (∀ a n b, pre = a ++ n :: b → ¬ CString.strcmp n.key k < 0 → ∃ x ∈ b, n.height < x.height) ∧
    ∀ a d b, post = a ++ d :: b → CString.strcmp d.key k < 0 →
      ∃ e ∈ c :: a, d.height ≤ e.height

omit [LinearOrder S] [Zero S] in
/-- The search by keys ends at such a member. -/
theorem findable_iff : Findable ns k ↔ ∃ pre c post, ns = pre ++ c :: post ∧ c.key = k ∧
    Passed (fun x => x.key < k) height pre ∧ Held (fun x => x.key < k) height (c :: post) := by
  constructor
  · rintro ⟨pre, c, post, hns, hk, hp, hh⟩
    refine ⟨pre, c, post, hns, hk, fun a n b hab hn => hp a n b hab (by simpa using hn), ?_⟩
    intro a d b hab hd
    cases a with
    | nil =>
      obtain ⟨rfl, -⟩ := List.cons.inj hab
      exact absurd hk hd.ne
    | cons y a =>
      obtain ⟨rfl, hrest⟩ := List.cons.inj hab
      exact hh a d b hrest (by simpa using hd)
  · rintro ⟨pre, c, post, hns, hk, hp, hh⟩
    refine ⟨pre, c, post, hns, hk, fun a n b hab hn => hp a n b hab (by simpa using hn), ?_⟩
    intro a d b hab hd
    exact hh (c :: a) d b (by simp [hab]) (by simpa using hd)

/-- Exactly when `kvs_skiptable_zrem` does what it announces. -/
theorem Holds.zremWorks_iff (h : L.Holds ns) :
    ZremWorks L ns k ↔ ((∃ c ∈ ns, c.key = k) → Findable ns k) := by
  obtain ⟨pre, post, hns, hp, hh, hcase⟩ := h.zrem k
  rw [findable_iff]
  constructor
  · intro hw hex
    obtain ⟨_, _, _, L', -, -, hret, -⟩ := hw.1 hex
    obtain ⟨c, post', L'', rfl, hk, -⟩ | ⟨-, hret'⟩ := hcase
    · exact ⟨pre, c, post', hns, hk, hp, hh⟩
    · cases hret.unique hret'
  · intro hf
    refine ⟨fun hex => ?_, fun hno => ?_⟩
    · obtain ⟨pre', c', post'', hns', hk', hp', hh'⟩ := hf hex
      obtain ⟨rfl, rfl⟩ := place_unique (hns.symm.trans hns') hp hh hp' hh'
      obtain ⟨c, post', L', hc, hk, hret, hH, -⟩ | ⟨hne, -⟩ := hcase
      · obtain ⟨rfl, rfl⟩ := List.cons.inj hc
        exact ⟨pre, c', post'', L', hns, hk, hret, hH.wellFormed⟩
      · exact absurd hk' (hne c' (by simp))
    · obtain ⟨c, post', L', rfl, hk, -⟩ | ⟨-, hret⟩ := hcase
      · exact absurd hk (hno c (by simp [hns]))
      · exact hret

/-- In every reachable list, whether `kvs_skiptable_zrem` works for a key is decided by the keys
and the heights of the members in the order of their scores. -/
theorem zrem_works_iff_findable (h : Reachable L) :
    ∃ ns, L.WellFormed ns ∧
      ∀ k, ZremWorks L ns k ↔ ((∃ c ∈ ns, c.key = k) → Findable ns k) := by
  obtain ⟨ns, hns⟩ := h.holds
  exact ⟨ns, hns.wellFormed, fun k => hns.zremWorks_iff⟩

/-- With `b` at score 1 before `a` at score 2, both on level 0 only, `b` is found and `a` is not. -/
theorem zrem_works_iff_findable_two : ∃ L : SkipList ℕ, Reachable L ∧
    L.WellFormed [⟨2, letterB, .empty, 1, 0⟩, ⟨3, letterA, .empty, 2, 0⟩] ∧
    ZremWorks L [⟨2, letterB, .empty, 1, 0⟩, ⟨3, letterA, .empty, 2, 0⟩] letterB ∧
    ¬ ZremWorks L [⟨2, letterB, .empty, 1, 0⟩, ⟨3, letterA, .empty, 2, 0⟩] letterA := by
  obtain ⟨L₁, hret₁, hH₁, hf₁⟩ := first_zadd letterB .empty 1 (Nat.zero_le _)
  obtain ⟨L₂, hret₂, hH₂, -⟩ :=
    second_zadd hH₁ hf₁ letterA .empty (show 1 < 2 by decide) (Nat.zero_le _)
  have h₁ : Reachable L₁ := .zadd (.create _ 1 (by decide))
    (fresh_create (by decide) (by decide)) (Nat.zero_le _) hret₁
  have h₂ : Reachable L₂ := h₁.zadd hf₁.1 (Nat.zero_le _) hret₂
  obtain ⟨ns, hw, hiff⟩ := zrem_works_iff_findable h₂
  obtain rfl := hw.unique hH₂.wellFormed
  refine ⟨L₂, h₂, hw, (hiff letterB).mpr fun _ => ?_, fun hworks => ?_⟩
  · refine ⟨[], _, _, rfl, rfl, fun a n b hab => by simp at hab, fun a d b hab _ => ?_⟩
    have hd : d ∈ [(⟨3, letterA, .empty, 2, 0⟩ : Member ℕ)] := by rw [hab]; simp
    rw [List.mem_singleton.mp hd]
    exact ⟨_, List.mem_cons_self, le_rfl⟩
  · have hmem : ∃ c ∈ [⟨2, letterB, .empty, 1, 0⟩, (⟨3, letterA, .empty, 2, 0⟩ : Member ℕ)],
        c.key = letterA := ⟨⟨3, letterA, .empty, 2, 0⟩, by simp, rfl⟩
    obtain ⟨pre, c, post, hns, hk, hpre, -⟩ := (hiff letterA).mp hworks hmem
    cases pre with
    | nil =>
      obtain ⟨rfl, -⟩ := List.cons.inj hns
      exact absurd hk (by decide)
    | cons x pre =>
      obtain ⟨rfl, hrest⟩ := List.cons.inj hns
      cases pre with
      | nil =>
        obtain ⟨y, hy, -⟩ := hpre [] _ [] rfl (by decide)
        exact absurd hy List.not_mem_nil
      | cons y pre =>
        have hlen := congrArg List.length hrest
        simp at hlen

/-- With `b` at score 1 before `a` at score 2, the search for `a` is held up at `b`. -/
theorem zrem_misses_member : ∃ L₁ L₂ : SkipList ℕ,
    Fuel.Returns (fun n => kvsSkiptableZadd n start 2 0 letterB .empty 1) (0, L₁) ∧
    Fuel.Returns (fun n => kvsSkiptableZadd n L₁ 3 0 letterA .empty 2) (0, L₂) ∧
    Reachable L₂ ∧ L₂.WellFormed [⟨2, letterB, .empty, 1, 0⟩, ⟨3, letterA, .empty, 2, 0⟩] ∧
    Fuel.Returns (fun n => kvsSkiptableZrem n L₂ letterA) (-1, L₂) := by
  obtain ⟨L₁, hret₁, hH₁, hf₁⟩ := first_zadd letterB .empty 1 (Nat.zero_le _)
  obtain ⟨L₂, hret₂, hH₂, -⟩ :=
    second_zadd hH₁ hf₁ letterA .empty (show 1 < 2 by decide) (Nat.zero_le _)
  refine ⟨L₁, L₂, hret₁, hret₂, ?_, hH₂.wellFormed, ?_⟩
  · have h₁ : Reachable L₁ := .zadd (.create _ 1 (by decide))
      (fresh_create (by decide) (by decide)) (Nat.zero_le _) hret₁
    exact h₁.zadd hf₁.1 (Nat.zero_le _) hret₂
  · obtain ⟨pre, post, hns, hp, hh, hcase⟩ := hH₂.zrem letterA
    rw [← List.nil_append [_, _]] at hns
    have hplace := place_unique hns .nil ?_ hp hh
    · obtain ⟨rfl, rfl⟩ := hplace
      obtain ⟨c, post', L', hc, hk, -⟩ | ⟨-, hret⟩ := hcase
      · obtain ⟨rfl, -⟩ := List.cons.inj hc
        exact absurd hk (by decide)
      · exact hret
    · intro a d b hab hd
      have hmem : d ∈ [⟨2, letterB, .empty, 1, 0⟩, (⟨3, letterA, .empty, 2, 0⟩ : Member ℕ)] := by
        rw [hab]
        simp
      simp only [List.mem_cons, List.not_mem_nil, or_false] at hmem
      rw [← CString.strcmp_neg] at hd
      obtain rfl | rfl := hmem
      · exact absurd hd (by decide)
      · exact absurd hd (by decide)

end SkipList
end KvStore
