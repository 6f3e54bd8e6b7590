import KvStore.Lib.Linked
import KvStore.Skip.Blocks
import KvStore.Skip.Spec

/-! Every skip list that `kvs_skiptable_zadd` and `kvs_skiptable_zrem` can build is well formed,
and what the two calls then make of the members as a set. -/
namespace KvStore
open Levels Member

namespace SkipList

section Chains

variable {S : Type*} {L : SkipList S} {l a b : List (Member S)} {x : Member S} {i : ℕ}

/-- Following `forward[i]` from `p` leads through the nodes `qs` and then to `NULL`. -/
def Chain (L : SkipList S) (i : ℕ) : Ptr → List Ptr → Prop
  | p, [] => L.read p i = some null
  | p, q :: qs => L.read p i = some q ∧ q ≠ null ∧ Chain L i q qs

/-- The nodes of a chain as a list that starts at the first of them. -/
theorem Chain.path {u : Ptr} {ps : List Ptr} (h : L.Chain i u ps) :
    ∃ p, L.read u i = some p ∧ Linked.Path null (L.read · i) p ps := by
  induction ps generalizing u with
  | nil => exact ⟨null, h, rfl⟩
  | cons q qs ih =>
    obtain ⟨hread, hq, hqs⟩ := h
    obtain ⟨r, hr, hpath⟩ := ih hqs
    exact ⟨q, hread, rfl, hq, r, hr, hpath⟩

theorem Chain.unique {u : Ptr} {ps qs : List Ptr} (hp : L.Chain i u ps) (hq : L.Chain i u qs) :
    ps = qs := by
  obtain ⟨p, hread, hps⟩ := hp.path
  obtain ⟨q, hread', hqs⟩ := hq.path
  rw [hread] at hread'
  cases hread'
  exact hps.unique hqs

/-- On each level the forward pointers run through the nodes that are high enough. -/
theorem Linked.chain (h : L.Linked (upTo height) l) (hnull : ∀ y ∈ l, y.ptr ≠ null)
    (hab : l = a ++ x :: b) (hi : i ≤ x.height) :
    L.Chain i x.ptr ((b.filter (upTo height · i)).map ptr) := by
  induction hn : b.length using Nat.strong_induction_on generalizing a x b with
  | _ n ih =>
    subst hn
    have hread := h.read hab hi (by simpa using hi)
    cases hx : nextAt (upTo height) i b with
    | none =>
      have hnil : b.filter (upTo height · i) = [] := by
        rw [List.filter_eq_nil_iff]
        intro y hy
        simpa using nextAt_eq_none.mp hx y hy
      rw [hnil]
      simpa [Chain, hx] using hread
    | some y =>
      obtain ⟨s, t, rfl, hon, hoff⟩ := nextAt_eq_some hx
      have hs : s.filter (upTo height · i) = [] := by
        rw [List.filter_eq_nil_iff]
        intro z hz
        simpa using hoff z hz
      have hrest := ih t.length (by simp; omega) (a := a ++ x :: s) (x := y) (b := t)
        (by simp [hab]) (by simpa using hon) rfl
      have hy : (y :: t).filter (upTo height · i) = y :: t.filter (upTo height · i) := by
        simp only [List.filter_cons, hon, if_true]
      rw [List.filter_append, hs, List.nil_append, hy, List.map_cons]
      exact ⟨by simpa [hx] using hread, hnull y (by simp [hab]), hrest⟩

end Chains

section Order

variable {α R : Type*} [Preorder R] {f : α → R} {pre post : List α} {c z : α}

theorem pairwise_insert (h : (pre ++ post).Pairwise fun x y => f x < f y)
    (hlo : ∀ x ∈ pre, f x < f z) (hhi : ∀ y ∈ post, f z < f y) :
    (pre ++ z :: post).Pairwise fun x y => f x < f y := by
  simp only [List.pairwise_append, List.pairwise_cons, List.mem_cons] at h ⊢
  refine ⟨h.1, ⟨hhi, h.2.1⟩, fun x hx y hy => ?_⟩
  obtain rfl | hy := hy
  · exact hlo x hx
  · exact h.2.2 x hx y hy

theorem pairwise_replace (h : (pre ++ c :: post).Pairwise fun x y => f x < f y) (hz : f z = f c) :
    (pre ++ z :: post).Pairwise fun x y => f x < f y := by
  simp only [List.pairwise_append, List.pairwise_cons, List.mem_cons, forall_eq_or_imp, hz] at h ⊢
  exact h

theorem eq_nil_of_last (h : (pre ++ z :: post).Pairwise fun x y => f x < f y)
    (hz : ∀ x ∈ pre ++ post, f x < f z) : post = [] := by
  rw [List.pairwise_append, List.pairwise_cons] at h
  rw [List.eq_nil_iff_forall_not_mem]
  intro y hy
  exact lt_asymm (h.2.1.1 y hy) (hz y (List.mem_append_right pre hy))

end Order

/-- The representation invariant: the members `ns` with their fields in the heap, in strict
order of score and key, on each level exactly those that are high enough, and counted. -/
structure WellFormed {S : Type*} [LT S] [BEq S] (L : SkipList S) (ns : List (Member S)) : Prop where
  stored : ∀ x ∈ ns, ∃ f, L.nodes x.ptr = some (x.node f) ∧ f.length = x.height + 1
  ordered : ns.Pairwise fun x y =>
    x.score < y.score ∨ (x.score == y.score) = true ∧ CString.strcmp x.key y.key < 0
  levels : ∀ i ≤ skipMaxLevel, L.Chain i L.header ((ns.filter (upTo height · i)).map ptr)
  headerNull : ∀ i, L.level < i → i ≤ skipMaxLevel → L.read L.header i = some null
  levelLe : L.level ≤ skipMaxLevel
  counted : L.length = ns.length

section Heap

variable {S : Type*} [LT S] [BEq S] {L : SkipList S} {ns ms : List (Member S)}

theorem WellFormed.chain (h : L.WellFormed ns) : L.Chain 0 L.header (ns.map ptr) := by
  have hall : ns.filter (upTo height · 0) = ns := by simp [upTo]
  have hchain := h.levels 0 (Nat.zero_le _)
  rwa [hall] at hchain

/-- The heap determines its members. -/
theorem WellFormed.unique (h : L.WellFormed ns) (h' : L.WellFormed ms) : ns = ms := by
  have hptr := h.chain.unique h'.chain
  have hlen : ns.length = ms.length := by simpa using congrArg List.length hptr
  refine List.ext_getElem hlen fun i hi hi' => ?_
  obtain ⟨f, hf, hheight⟩ := h.stored ns[i] (List.getElem_mem hi)
  obtain ⟨f', hf', hheight'⟩ := h'.stored ms[i] (List.getElem_mem hi')
  have hp : ns[i].ptr = ms[i].ptr := by
    have hget := List.getElem_of_eq hptr (by simpa using hi)
    simpa using hget
  rw [hp, hf', Option.some.injEq, node, node, SkipNode.mk.injEq] at hf
  obtain ⟨hkey, hvalue, hscore, rfl⟩ := hf
  have hh : ns[i].height = ms[i].height := by omega
  calc ns[i] = ⟨ns[i].ptr, ns[i].key, ns[i].value, ns[i].score, ns[i].height⟩ := rfl
    _ = ⟨ms[i].ptr, ms[i].key, ms[i].value, ms[i].score, ms[i].height⟩ := by
      rw [hp, hkey, hvalue, hscore, hh]

end Heap

variable {S : Type*} [Zero S] {L L' : SkipList S} {ns : List (Member S)}

/-- What the descents need of a list makes it well formed, once its members are in order. -/
theorem Repr.wellFormed [LT S] [BEq S] (h : L.Repr ns) (hord : ns.Pairwise fun x y =>
    x.score < y.score ∨ (x.score == y.score) = true ∧ CString.strcmp x.key y.key < 0) :
    L.WellFormed ns := by
  have hchain : ∀ i ≤ skipMaxLevel, L.Chain i L.header ((ns.filter (upTo height · i)).map ptr) :=
    fun i hi => h.linked.chain (a := []) (x := L.hdr) h.nonnull rfl hi
  refine ⟨fun x hx => ?_, hord, hchain, fun i hi hi' => ?_, h.level_le, h.length_eq⟩
  · obtain ⟨a, b, rfl⟩ := List.append_of_mem hx
    obtain ⟨f, hf, hlen, -⟩ := h.linked (L.hdr :: a) x b rfl
    exact ⟨f, hf, hlen⟩
  · have hnil : ns.filter (upTo height · i) = [] := by
      rw [List.filter_eq_nil_iff]
      intro y hy
      have hle := h.heights y hy
      simp
      omega
    have hc := hchain i hi'
    rwa [hnil] at hc

/-- `kvs_skiptable_create` gives the empty list, whatever the rest of the memory holds. -/
theorem Repr.create (nodes : Ptr → Option (SkipNode S)) {p : Ptr} (hp : p ≠ null) :
    (kvsSkiptableCreate nodes p).Repr [] := by
  refine ⟨?_, by simp, ?_, by simp, Nat.zero_le _, rfl⟩
  · intro a x b hab
    obtain ⟨rfl, rfl, rfl⟩ : a = [] ∧ x = (kvsSkiptableCreate nodes p).hdr ∧ b = [] := by
      cases a with
      | nil => simpa [eq_comm] using hab
      | cons y a => simp at hab
    refine ⟨List.replicate (skipMaxLevel + 1) null, ?_, by simp [hdr], fun i hi _ => ?_⟩
    · simp [kvsSkiptableCreate, createSkipNode, hdr, node]
    · have hi' : i < skipMaxLevel + 1 := Nat.lt_succ_of_le hi
      simp [nextAt, hi']
  · intro x hx
    rw [List.mem_singleton.mp hx]
    exact hp

/-- Blocks that hold no node, as `malloc` returns them. -/
def Fresh (L : SkipList S) (p : Ptr) : Prop := p ≠ null ∧ L.nodes p = none

omit [Zero S] in
theorem Fresh.zadd [LT S] [DecidableLT S] [BEq S] {p q : Ptr} {level : ℕ} {k v : CString} {score : S}
    {r : ℤ} (hq : L.Fresh q) (hne : q ≠ p)
    (hret : Fuel.Returns (fun n => kvsSkiptableZadd n L p level k v score) (r, L')) :
    L'.Fresh q := by
  obtain ⟨n, hn⟩ := hret
  have hnone : ¬ (L.nodes q).isSome := by simp [hq.2]
  refine ⟨hq.1, Option.not_isSome_iff_eq_none.mp ?_⟩
  obtain ⟨-, hsame⟩ | ⟨-, -, hmore⟩ := zadd_blocks (hn n le_rfl)
  · rwa [hsame.blocks]
  · rw [hmore]
    tauto

theorem fresh_create {p q : Ptr} (hq : q ≠ null) (hqp : q ≠ p) :
    (kvsSkiptableCreate (fun _ => none) p : SkipList S).Fresh q :=
  ⟨hq, by simp [kvsSkiptableCreate, createSkipNode, hqp]⟩

variable [LinearOrder S]

/-- The invariant in the form that the operations carry along. -/
structure Holds (L : SkipList S) (ns : List (Member S)) : Prop where
  repr : L.Repr ns
  sorted : Sorted ns

theorem Holds.wellFormed (h : L.Holds ns) : L.WellFormed ns := by
  refine h.repr.wellFormed (h.sorted.imp fun hxy => ?_)
  simpa [rank, Prod.Lex.toLex_lt_toLex] using hxy

theorem Holds.create (nodes : Ptr → Option (SkipNode S)) {p : Ptr} (hp : p ≠ null) :
    (kvsSkiptableCreate nodes p).Holds [] := ⟨.create nodes hp, .nil⟩

/-- What `kvs_skiptable_zadd` does to the members. -/
theorem Holds.zadd (h : L.Holds ns) {p : Ptr} {level : ℕ} (hp : L.Fresh p)
    (hlevel : level ≤ skipMaxLevel) (k v : CString) (score : S) :
    ∃ pre post L',
      (∃ c, ns = pre ++ c :: post ∧ c.score = score ∧ c.key = k ∧
        Fuel.Returns (fun n => kvsSkiptableZadd n L p level k v score) (1, L') ∧
        L'.Holds (pre ++ { c with value := v } :: post)) ∨
      ns = pre ++ post ∧ (∀ x ∈ ns, x.score = score → x.key ≠ k) ∧
        Fuel.Returns (fun n => kvsSkiptableZadd n L p level k v score) (0, L') ∧
        L'.Holds (pre ++ ⟨p, k, v, score, level⟩ :: post) := by
  obtain ⟨pre, post, L', hlo, -, ⟨c, rfl, hsc, hk, hret, hR, -⟩ | ⟨rfl, hhi, hret, hR⟩⟩ :=
    h.repr.zadd h.sorted hp.2 hp.1 hlevel k v score
  · exact ⟨pre, post, L', .inl ⟨c, rfl, hsc, hk, hret, hR, pairwise_replace h.sorted rfl⟩⟩
  · refine ⟨pre, post, L', .inr ⟨rfl, fun x hx hsc hk => ?_, hret, hR,
      pairwise_insert h.sorted hlo hhi⟩⟩
    have hrank : rank x = toLex (score, k) := by rw [rank, hsc, hk]
    obtain hx | hx := List.mem_append.mp hx
    · exact (hlo x hx).ne hrank
    · exact (hhi x hx).ne' hrank

/-- What `kvs_skiptable_zrem` does to the members. -/
theorem Holds.zrem (h : L.Holds ns) (k : CString) :
    ∃ pre post, ns = pre ++ post ∧ Passed (fun x => x.key < k) height pre ∧
      Held (fun x => x.key < k) height post ∧
      ((∃ c post' L', post = c :: post' ∧ c.key = k ∧
          Fuel.Returns (fun n => kvsSkiptableZrem n L k) (0, L') ∧ L'.Holds (pre ++ post') ∧
          L'.nodes c.ptr = none ∧ c.ptr ∉ L'.header :: (pre ++ post').map ptr) ∨
        (∀ c ∈ post.head?, c.key ≠ k) ∧
          Fuel.Returns (fun n => kvsSkiptableZrem n L k) (-1, L)) := by
  obtain ⟨pre, post, rfl, hp, hh, ⟨c, post', L', rfl, hk, hret, hR, hheader, hnone⟩ | hno⟩ :=
    h.repr.zrem k
  · refine ⟨pre, _, rfl, hp, hh, .inl ⟨c, post', L', rfl, hk, hret, ⟨hR, ?_⟩, hnone, ?_⟩⟩
    · exact h.sorted.sublist (by simp)
    · have hn := h.repr.nodup
      rw [← List.cons_append, List.map_append, List.map_cons (l := post'), List.nodup_middle,
        ← List.map_append] at hn
      rw [hheader]
      exact (List.nodup_cons.mp hn).1
  · exact ⟨pre, post, rfl, hp, hh, .inr hno⟩

/-- The lists built by the two calls, with any outcome of `randomLevel`. -/
inductive Reachable : SkipList S → Prop
  | create (nodes : Ptr → Option (SkipNode S)) (p : Ptr) (hp : p ≠ null) :
      Reachable (kvsSkiptableCreate nodes p)
  | zadd {L L' : SkipList S} {p : Ptr} {level : ℕ} {key value : CString} {score : S} {r : ℤ}
      (h : Reachable L) (hp : L.Fresh p) (hlevel : level ≤ skipMaxLevel)
      (hret : Fuel.Returns (fun n => kvsSkiptableZadd n L p level key value score) (r, L')) :
      Reachable L'
  | zrem {L L' : SkipList S} {key : CString} {r : ℤ} (h : Reachable L)
      (hret : Fuel.Returns (fun n => kvsSkiptableZrem n L key) (r, L')) : Reachable L'

theorem Reachable.holds (h : Reachable L) : ∃ ns, L.Holds ns := by
  induction h with
  | create nodes p hp => exact ⟨[], .create nodes hp⟩
  | zadd _ hp hlevel hret ih =>
    obtain ⟨ns, hns⟩ := ih
    obtain ⟨pre, post, L', ⟨c, -, -, -, hret', hH⟩ | ⟨-, -, hret', hH⟩⟩ := hns.zadd hp hlevel _ _ _
    · cases hret.unique hret'
      exact ⟨_, hH⟩
    · cases hret.unique hret'
      exact ⟨_, hH⟩
  | zrem _ hret ih =>
    obtain ⟨ns, hns⟩ := ih
    obtain ⟨pre, post, -, -, -, ⟨c, post', L', -, -, hret', hH, -⟩ | ⟨-, hret'⟩⟩ := hns.zrem _
    · cases hret.unique hret'
      exact ⟨_, hH⟩
    · cases hret.unique hret'
      exact ⟨ns, hns⟩

/-- Every reachable list is well formed. Both calls return from it without leaving the memory of
its nodes, and a node that is removed is on no level any more. -/
theorem reachable_wellFormed (h : Reachable L) :
    ∃ ns, L.WellFormed ns ∧
      (∀ p level key value score, L.Fresh p → level ≤ skipMaxLevel → ∃ r L',
        Fuel.Returns (fun n => kvsSkiptableZadd n L p level key value score) (r, L') ∧
        ∃ ns', L'.WellFormed ns') ∧
      ∀ key, ∃ r L', Fuel.Returns (fun n => kvsSkiptableZrem n L key) (r, L') ∧
        (r = -1 ∧ L' = L ∨ r = 0 ∧ ∃ pre c post, ns = pre ++ c :: post ∧
          L'.WellFormed (pre ++ post) ∧ L'.nodes c.ptr = none ∧
          c.ptr ∉ L'.header :: (pre ++ post).map ptr) := by
  obtain ⟨ns, hns⟩ := h.holds
  refine ⟨ns, hns.wellFormed, fun p level key value score hp hlevel => ?_, fun key => ?_⟩
  · obtain ⟨pre, post, L', ⟨c, -, -, -, hret, hH⟩ | ⟨-, -, hret, hH⟩⟩ :=
      hns.zadd hp hlevel key value score
    · exact ⟨1, L', hret, _, hH.wellFormed⟩
    · exact ⟨0, L', hret, _, hH.wellFormed⟩
  · obtain ⟨pre, post, hns', -, -, ⟨c, post', L', rfl, -, hret, hH, hnone, hnot⟩ | ⟨-, hret⟩⟩ :=
      hns.zrem key
    · exact ⟨0, L', hret, .inr ⟨rfl, pre, c, post', hns', hH.wellFormed, hnone, hnot⟩⟩
    · exact ⟨-1, L, hret, .inl ⟨rfl, rfl⟩⟩

/-- An empty skip list over scores that are natural numbers. -/
abbrev start : SkipList ℕ := kvsSkiptableCreate (fun _ => none) 1

def letterA : CString := ⟨[97], by decide⟩
def letterB : CString := ⟨[98], by decide⟩

/-- The first member of a list. -/
theorem first_zadd (k v : CString) (score : ℕ) {level : ℕ} (hlevel : level ≤ skipMaxLevel) :
    ∃ L, Fuel.Returns (fun n => kvsSkiptableZadd n start 2 level k v score) (0, L) ∧
      L.Holds [⟨2, k, v, score, level⟩] ∧ L.Fresh 3 ∧ L.Fresh 4 := by
  have hfresh : ∀ q : Ptr, q ≠ null → q ≠ 1 → start.Fresh q := fun q => fresh_create
  obtain ⟨pre, post, L, ⟨c, hc, -⟩ | ⟨hns, -, hret, hH⟩⟩ :=
    (Holds.create (fun _ => none) (p := 1) (by decide)).zadd (hfresh 2 (by decide) (by decide)) hlevel
      k v score
  · simp at hc
  · obtain ⟨rfl, rfl⟩ := List.append_eq_nil_iff.mp hns.symm
    exact ⟨L, hret, hH, (hfresh 3 (by decide) (by decide)).zadd (by decide) hret,
      (hfresh 4 (by decide) (by decide)).zadd (by decide) hret⟩

/-- A second member with a higher score comes behind the first. -/
theorem second_zadd {L : SkipList ℕ} {k v : CString} {s height : ℕ}
    (h : L.Holds [⟨2, k, v, s, height⟩]) (hf : L.Fresh 3 ∧ L.Fresh 4) (k' v' : CString) {s' : ℕ}
    (hs : s < s') {level : ℕ} (hlevel : level ≤ skipMaxLevel) :
    ∃ L', Fuel.Returns (fun n => kvsSkiptableZadd n L 3 level k' v' s') (0, L') ∧
      L'.Holds [⟨2, k, v, s, height⟩, ⟨3, k', v', s', level⟩] ∧ L'.Fresh 4 := by
  obtain ⟨pre, post, L', ⟨c, hc, hsc, -⟩ | ⟨hns, -, hret, hH⟩⟩ := h.zadd hf.1 hlevel k' v' s'
  · have hmem : c ∈ [(⟨2, k, v, s, height⟩ : Member ℕ)] := by simp [hc]
    rw [List.mem_singleton.mp hmem] at hsc
    exact absurd hsc hs.ne
  · have hlast : post = [] := by
      refine eq_nil_of_last hH.sorted fun x hx => ?_
      rw [← hns, List.mem_singleton] at hx
      rw [hx, rank, rank, Prod.Lex.toLex_lt_toLex]
      exact .inl hs
    rw [hlast, List.append_nil] at hns
    rw [hlast, ← hns] at hH
    exact ⟨L', hret, hH, hf.2.zadd (by decide) hret⟩

/-- `a` at height 0 and `b` at height 3, and what the two calls do to this list. -/
theorem reachable_wellFormed_two : ∃ L : SkipList ℕ, Reachable L ∧
    L.WellFormed [⟨2, letterA, .empty, 1, 0⟩, ⟨3, letterB, .empty, 2, 3⟩] ∧
    (∃ r L', Fuel.Returns (fun n => kvsSkiptableZadd n L 4 1 letterA .empty 2) (r, L') ∧
      ∃ ns', L'.WellFormed ns') ∧
    ∃ r L', Fuel.Returns (fun n => kvsSkiptableZrem n L letterA) (r, L') ∧
      (r = -1 ∧ L' = L ∨ r = 0 ∧ ∃ pre c post,
        [⟨2, letterA, .empty, 1, 0⟩, ⟨3, letterB, .empty, 2, 3⟩] = pre ++ c :: post ∧
        L'.WellFormed (pre ++ post) ∧ L'.nodes c.ptr = none ∧
        c.ptr ∉ L'.header :: (pre ++ post).map ptr) := by
  obtain ⟨L₁, hret₁, hH₁, hf₁⟩ := first_zadd letterA .empty 1 (Nat.zero_le _)
  obtain ⟨L₂, hret₂, hH₂, hf₂⟩ :=
    second_zadd hH₁ hf₁ letterB .empty (show 1 < 2 by decide) (show 3 ≤ skipMaxLevel by decide)
  have h₁ : Reachable L₁ := .zadd (.create _ 1 (by decide))
    (fresh_create (by decide) (by decide)) (Nat.zero_le _) hret₁
  have h₂ : Reachable L₂ := h₁.zadd hf₁.1 (by decide) hret₂
  obtain ⟨ns, hw, hzadd, hzrem⟩ := reachable_wellFormed h₂
  obtain rfl := hw.unique hH₂.wellFormed
  exact ⟨L₂, h₂, hw, hzadd 4 1 letterA .empty 2 hf₂ (by decide), hzrem letterA⟩

end SkipList
end KvStore
