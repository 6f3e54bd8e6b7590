import KvStore.Lib.Linked
import KvStore.Lib.Memory
import Mathlib.Data.List.Nodup
import Mathlib.Data.List.Pairwise
import Mathlib.Data.List.Perm.Subperm
import Mathlib.Logic.Function.Basic

/-! Blocks spread over places, so that no byte is in two blocks. -/
namespace KvStore
namespace Memory

variable {π : Type*} [DecidableEq π] {lists : π → List Block} {x y : π}

/-- Every block lies apart from the other blocks of its place and of all other places. -/
structure Separate (lists : π → List Block) : Prop where
  within : ∀ x, (lists x).Pairwise Apart
  across : ∀ x y, x ≠ y → ∀ a ∈ lists x, ∀ b ∈ lists y, Apart a b

theorem pairwise_subperm {as bs : List Block} (h : as.Subperm bs) (hbs : bs.Pairwise Apart) :
    as.Pairwise Apart := by
  obtain ⟨cs, hperm, hsub⟩ := h
  exact (hperm.pairwise_iff fun {_ _} hab => hab.symm).mp (hbs.sublist hsub)

namespace Separate

omit [DecidableEq π] in
/-- Two blocks at different places, or two different ones. -/
theorem apart (h : Separate lists) {a b : Block} (ha : a ∈ lists x) (hb : b ∈ lists y)
    (hne : x ≠ y ∨ a ≠ b) : Apart a b := by
  by_cases hxy : x = y
  · subst hxy
    have hsymm : Std.Symm Apart := ⟨fun _ _ hap => hap.symm⟩
    exact (h.within x).forall ha hb (hne.resolve_left fun hx => hx rfl)
  · exact h.across x y hxy a ha b hb

/-- The blocks of one place are other ones, apart from each other and from all blocks of the
other places. -/
theorem replace (h : Separate lists) {xs : List Block} (hxs : xs.Pairwise Apart)
    (hnew : ∀ y, y ≠ x → ∀ a ∈ xs, ∀ b ∈ lists y, Apart a b) :
    Separate (Function.update lists x xs) := by
  refine ⟨fun z => ?_, fun z w hzw a ha b hb => ?_⟩
  · by_cases hzx : z = x
    · rwa [hzx, Function.update_self]
    rw [Function.update_of_ne hzx]
    exact h.within z
  · by_cases hzx : z = x
    · subst hzx
      rw [Function.update_self] at ha
      rw [Function.update_of_ne hzw.symm] at hb
      exact hnew w hzw.symm a ha b hb
    rw [Function.update_of_ne hzx] at ha
    by_cases hwx : w = x
    · subst hwx
      rw [Function.update_self] at hb
      exact (hnew z hzx b hb a ha).symm
    rw [Function.update_of_ne hwx] at hb
    exact h.across z w hzw a ha b hb

/-- Blocks change between two places, and some may be lost. -/
theorem exchange (h : Separate lists) (hxy : x ≠ y) {xs ys : List Block}
    (hsub : (xs ++ ys).Subperm (lists x ++ lists y)) :
    Separate (Function.update (Function.update lists x xs) y ys) := by
  have hboth : (lists x ++ lists y).Pairwise Apart :=
    List.pairwise_append.mpr ⟨h.within x, h.within y, h.across x y hxy⟩
  obtain ⟨hxs, hys, hcross⟩ := List.pairwise_append.mp (pairwise_subperm hsub hboth)
  have hother : ∀ z, z ≠ x → z ≠ y → ∀ a ∈ xs ++ ys, ∀ b ∈ lists z, Apart a b := by
    intro z hzx hzy a ha b hb
    rcases List.mem_append.mp (hsub.subset ha) with hax | hay
    · exact h.across x z hzx.symm a hax b hb
    · exact h.across y z hzy.symm a hay b hb
  -- the first place is emptied before the second one is filled
  have hempty := h.replace (x := x) List.Pairwise.nil (by simp)
  have hsecond := hempty.replace (x := y) hys fun z hzy a ha b hb => by
    by_cases hzx : z = x
    · simp [hzx] at hb
    rw [Function.update_of_ne hzx] at hb
    exact hother z hzx hzy a (List.mem_append_right _ ha) b hb
  have hfirst := hsecond.replace (x := x) hxs fun z hzx a ha b hb => by
    by_cases hzy : z = y
    · rw [hzy, Function.update_self] at hb
      exact hcross a ha b hb
    rw [Function.update_of_ne hzy, Function.update_of_ne hzx] at hb
    exact hother z hzx hzy a (List.mem_append_left _ ha) b hb
  rwa [Function.update_comm hxy, Function.update_idem, Function.update_comm hxy.symm] at hfirst

end Separate

theorem Apart.words {a b : Block} (h : Apart a b) (ha : wordBytes ≤ a.bytes)
    (hb : wordBytes ≤ b.bytes) : Apart ⟨a.ptr, wordBytes⟩ ⟨b.ptr, wordBytes⟩ := by
  rw [apart_mk]
  unfold Apart at h
  omega

/-- A word written at the start of one block leaves the one at the start of another. -/
theorem load_store_block {m : ℕ → UInt8} {a b : Block} {v : ℕ} (h : Apart a b)
    (ha : wordBytes ≤ a.bytes) (hb : wordBytes ≤ b.bytes) :
    load (store m b.ptr v) a.ptr = load m a.ptr := load_store_of_apart (h.words ha hb)

/-- The last block of a stretch that is followed by others. -/
theorem Chain.append_right {m : ℕ → UInt8} {p : ℕ} {qs : List ℕ} {q : ℕ} {rs : List ℕ}
    (h : Chain m p (qs ++ q :: rs)) : Chain m (load m q) rs := by
  induction qs generalizing p with
  | nil => exact h.2.2
  | cons r qs ih => exact ih h.2.2

/-- A chain is cut behind a block and joined to another chain there. -/
theorem Chain.relink {m m' : ℕ → UInt8} {p : ℕ} {qs : List ℕ} {q : ℕ} {rs ts : List ℕ}
    (h : Chain m p (qs ++ q :: rs)) (hqs : ∀ r ∈ qs, load m' r = load m r)
    (hts : Chain m' (load m' q) ts) : Chain m' p (qs ++ q :: ts) := by
  induction qs generalizing p with
  | nil => exact ⟨h.1, h.2.1, hts⟩
  | cons r qs ih =>
    refine ⟨h.1, h.2.1, ?_⟩
    rw [hqs r List.mem_cons_self]
    exact ih h.2.2 fun r' hr' => hqs r' (List.mem_cons_of_mem _ hr')

/-- The words at the start of two blocks have no byte in common. -/
theorem load_store_of_pairwise {m : ℕ → UInt8} {qs : List ℕ} {q r v : ℕ} {rs : List ℕ}
    (h : (qs ++ q :: rs).Pairwise fun a b => Apart ⟨a, wordBytes⟩ ⟨b, wordBytes⟩)
    (hr : r ∈ qs ∨ r ∈ rs) : load (store m q v) r = load m r := by
  obtain ⟨-, hrest, hcross⟩ := List.pairwise_append.mp h
  apply load_store_of_apart
  obtain hr | hr := hr
  · exact hcross r hr q List.mem_cons_self
  · exact ((List.pairwise_cons.mp hrest).1 r hr).symm

/-- A chain is cut in two behind a block. -/
theorem Chain.cut {m : ℕ → UInt8} {p : ℕ} {qs : List ℕ} {q : ℕ} {rs : List ℕ}
    (h : Chain m p (qs ++ q :: rs))
    (hw : (qs ++ q :: rs).Pairwise fun a b => Apart ⟨a, wordBytes⟩ ⟨b, wordBytes⟩) :
    Chain (store m q 0) p (qs ++ [q]) ∧ Chain (store m q 0) (load m q) rs := by
  refine ⟨h.relink (fun r hr => load_store_of_pairwise hw (.inl hr)) ?_, ?_⟩
  · exact load_store (Nat.pow_pos (by decide))
  · exact h.append_right.congr fun r hr => load_store_of_pairwise hw (.inr hr)

/-- A chain is put in front of another one by writing the head of that into its last block. -/
theorem Chain.join {m : ℕ → UInt8} {p c : ℕ} {qs : List ℕ} {q : ℕ} {rs : List ℕ}
    (h : Chain m p (qs ++ [q])) (hc : Chain m c rs) (hlt : c < 256 ^ wordBytes)
    (hw : (qs ++ q :: rs).Pairwise fun a b => Apart ⟨a, wordBytes⟩ ⟨b, wordBytes⟩) :
    Chain (store m q c) p (qs ++ q :: rs) := by
  refine h.relink (fun r hr => load_store_of_pairwise hw (.inl hr)) ?_
  rw [load_store hlt]
  exact hc.congr fun r hr => load_store_of_pairwise hw (.inr hr)

theorem Chain.ne_zero {m : ℕ → UInt8} {p q : ℕ} {qs : List ℕ} (h : Chain m p qs) (hq : q ∈ qs) :
    q ≠ 0 := by
  induction qs generalizing p with
  | nil => cases hq
  | cons r qs ih =>
    obtain rfl | hq := List.mem_cons.mp hq
    · exact h.2.1
    · exact ih h.2.2 hq

/-- A chain of words is a list of links. -/
theorem chain_iff_path {m : ℕ → UInt8} {p : ℕ} {qs : List ℕ} :
    Chain m p qs ↔ Linked.Path 0 (fun q => some (load m q)) p qs := by
  induction qs generalizing p with
  | nil => exact Iff.rfl
  | cons q qs ih => simp [Chain, Linked.Path, ih]

theorem Chain.unique {m : ℕ → UInt8} {p : ℕ} {qs rs : List ℕ} (hq : Chain m p qs)
    (hr : Chain m p rs) : qs = rs := (chain_iff_path.mp hq).unique (chain_iff_path.mp hr)

theorem Chain.nodup {m : ℕ → UInt8} {p : ℕ} {qs : List ℕ} (h : Chain m p qs) : qs.Nodup :=
  (chain_iff_path.mp h).nodup

/-- The links lead from `p` to the block. -/
inductive Reach (m : ℕ → UInt8) (p : ℕ) : ℕ → Prop
  | head (hp : p ≠ 0) : Reach m p p
  | next {r : ℕ} (h : Reach m p r) (hr : load m r ≠ 0) : Reach m p (load m r)

/-- The blocks that the links of a chain lead to are its own. -/
theorem Chain.mem_of_reach {m : ℕ → UInt8} {p r : ℕ} {qs : List ℕ} (h : Chain m p qs)
    (hr : Reach m p r) : r ∈ qs := by
  have hsplit : ∃ pre post, qs = pre ++ r :: post := by
    induction hr with
    | head hp =>
      obtain ⟨rest, rfl, -⟩ := h.pop hp
      exact ⟨[], rest, rfl⟩
    | next _ hne ih =>
      obtain ⟨pre, post, rfl⟩ := ih
      obtain ⟨rest, rfl, -⟩ := h.append_right.pop hne
      exact ⟨pre ++ [_], rest, by rw [List.append_assoc, List.singleton_append]⟩
  obtain ⟨pre, post, rfl⟩ := hsplit
  simp

/-- Blocks of `b` bytes that lie apart in a space have no more bytes than it. -/
theorem length_mul_le {b n : ℕ} {ptrs : List ℕ}
    (h : ptrs.Pairwise fun p q => Apart ⟨p, b⟩ ⟨q, b⟩) (hspace : ∀ p ∈ ptrs, p + b ≤ n) :
    ptrs.length * b ≤ n := by
  have hnodup : (ptrs.flatMap fun p => List.range' p b).Nodup := by
    refine List.nodup_flatMap.mpr ⟨fun p _ => List.nodup_range', h.imp fun {p q} hpq => ?_⟩
    intro x hx hy
    obtain ⟨hp, hpx⟩ := List.mem_range'_1.mp hx
    obtain ⟨hq, hqx⟩ := List.mem_range'_1.mp hy
    exact hpq.not_has ⟨hp, hpx⟩ ⟨hq, hqx⟩
  have hsub : (ptrs.flatMap fun p => List.range' p b) ⊆ List.range n := by
    intro x hx
    obtain ⟨p, hp, hx⟩ := List.mem_flatMap.mp hx
    exact List.mem_range.mpr ((List.mem_range'_1.mp hx).2.trans_le (hspace p hp))
  have hlen := (List.subperm_of_subset hnodup hsub).length_le
  simpa using hlen

end Memory
end KvStore
