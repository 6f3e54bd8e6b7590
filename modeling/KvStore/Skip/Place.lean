import KvStore.Skip.Invariant
import Mathlib.Data.List.Sort

/-! Where `kvs_skiptable_zadd` puts a member. The descent over all levels ends at the node where a
scan of level 0 alone ends, and the members become those of a sorted insertion. -/
namespace KvStore
open Levels Member

namespace SkipList

variable {S : Type*} [LinearOrder S] [Zero S] {L : SkipList S} {ns pre post pre' post' : List (Member S)}
  {k : CString} {score : S}

/-- A split of the members at the rank of a score and a key. -/
structure SplitAt (ns : List (Member S)) (score : S) (k : CString) (pre post : List (Member S)) :
    Prop where
  append : ns = pre ++ post
  below : ∀ x ∈ pre, rank x < toLex (score, k)
  above : ∀ x ∈ post, ¬ rank x < toLex (score, k)

omit [Zero S] in
theorem SplitAt.unique (h : SplitAt ns score k pre post) (h' : SplitAt ns score k pre' post') :
    pre = pre' ∧ post = post' := by
  have hpass : ∀ {pre : List (Member S)}, (∀ x ∈ pre, rank x < toLex (score, k)) →
      Passed (fun x => rank x < toLex (score, k)) height pre := by
    intro pre hpre a n b hab hn
    exact absurd (hpre n (by simp [hab])) hn
  have hheld : ∀ {post : List (Member S)}, (∀ x ∈ post, ¬ rank x < toLex (score, k)) →
      Held (fun x => rank x < toLex (score, k)) height post := by
    intro post hpost a d b hab hd
    exact absurd hd (hpost d (by simp [hab]))
  exact place_unique (h.append.symm.trans h'.append) (hpass h.below) (hheld h.above)
    (hpass h'.below) (hheld h'.above)

/-- In the order of the members the test holds up to a place and fails behind it. -/
theorem Holds.splitAt (h : L.Holds ns) (hns : ns = pre ++ post)
    (hpass : Passed (fun x => rank x < toLex (score, k)) height pre)
    (hheld : Held (fun x => rank x < toLex (score, k)) height post) :
    SplitAt ns score k pre post := by
  have hmono : ns.Pairwise fun x y => rank y < toLex (score, k) → rank x < toLex (score, k) :=
    h.sorted.imp fun hxy hy => hxy.trans hy
  rw [hns, List.pairwise_append] at hmono
  exact ⟨hns, hpass.of_sorted hmono.1, hheld.of_sorted hmono.2.1⟩

/-- A scan of level 0 from the header ends at the last member below the place. -/
theorem Holds.scan (h : L.Holds ns) (score : S) (k : CString) :
    ∃ pre u post, SplitAt ns score k pre post ∧ (∃ q, L.hdr :: pre = q ++ [u]) ∧
      Fuel.Returns (fun n => L.scan (zaddLess score k) 0 n L.header) u.ptr := by
  have hstart : Descent (fun x => rank x < toLex (score, k)) L.hdr 0 0 [] L.hdr ns fun _ => none :=
    ⟨⟨[], rfl⟩, Nat.zero_le _, .nil, fun j hj hl => by omega, fun j hj hl => by omega⟩
  obtain ⟨pre, u, post, hns, hret, hend, hblock⟩ := hstart.scan h.repr.linked
    (fun x hx => h.repr.nonnull x (by simpa using .inr hx)) (zaddLess_iff score k)
  rw [List.nil_append] at hns
  refine ⟨pre, u, post, h.splitAt hns hend.passed fun a d b hab hd => ?_, hend.last, hret⟩
  have hhead : ∀ e t, post = e :: t → ¬ rank e < toLex (score, k) := by
    rintro e t rfl
    exact hblock e (nextAt_cons_on (by simp))
  cases a with
  | nil => exact absurd hd (hhead d b hab)
  | cons e a =>
    have hs := h.sorted
    rw [hns, hab, Sorted, List.pairwise_append] at hs
    have hed : rank e < rank d := (List.pairwise_cons.mp hs.2.1).1 d (by simp)
    exact absurd (hed.trans hd) (hhead e _ hab)

/-- So does the descent from the top level. -/
theorem Holds.descend (h : L.Holds ns) (score : S) (k : CString) :
    ∃ pre u post update, SplitAt ns score k pre post ∧ (∃ q, L.hdr :: pre = q ++ [u]) ∧
      Fuel.Returns (fun n => L.descend (zaddLess score k) n L.level L.header fun _ => none)
        (u.ptr, update) := by
  have hstart : Descent (fun x => rank x < toLex (score, k)) L.hdr L.level L.level [] L.hdr ns
      fun _ => none :=
    ⟨⟨[], rfl⟩, h.repr.level_le, .nil, fun j hj hl => by omega, fun j hj hl => by omega⟩
  obtain ⟨pre, u, post, update, hns, hret, hlast, hpass, hblock, -⟩ := hstart.descend h.repr.linked
    (fun x hx => h.repr.nonnull x (by simpa using .inr hx)) (zaddLess_iff score k)
  rw [List.nil_append] at hns
  have hheld := Held.of_blocked (fun x hx => h.repr.heights x (by simp [hns, hx])) hblock
  exact ⟨pre, u, post, update, h.splitAt hns hpass hheld, hlast, hret⟩

theorem Holds.same_place (h : L.Holds ns) (score : S) (k : CString) : ∃ u update,
    Fuel.Returns (fun n => L.scan (zaddLess score k) 0 n L.header) u ∧
    Fuel.Returns (fun n => L.descend (zaddLess score k) n L.level L.header fun _ => none)
      (u, update) := by
  obtain ⟨pre, u, post, hsplit, ⟨q, hq⟩, hscan⟩ := h.scan score k
  obtain ⟨pre', u', post', update, hsplit', ⟨q', hq'⟩, hdescend⟩ := h.descend score k
  obtain ⟨rfl, -⟩ := hsplit.unique hsplit'
  rw [hq] at hq'
  obtain ⟨-, hu⟩ := List.append_inj' hq' rfl
  cases hu
  exact ⟨u.ptr, update, hscan, hdescend⟩

omit [Zero S] in
/-- The place of a new member is the one that insertion into the sorted list finds. -/
theorem SplitAt.orderedInsert (h : SplitAt ns score k pre post) {z : Member S}
    (hz : rank z = toLex (score, k)) :
    ns.orderedInsert (fun x y => rank x ≤ rank y) z = pre ++ z :: post := by
  obtain ⟨rfl, hpre, hpost⟩ := h
  rw [← hz] at hpre hpost
  induction pre with
  | nil =>
    cases post with
    | nil => rfl
    | cons d post => exact List.orderedInsert_cons_of_le _ _ (not_lt.mp (hpost d List.mem_cons_self))
  | cons x pre ih =>
    have hx : ¬ rank z ≤ rank x := not_le.mpr (hpre x List.mem_cons_self)
    have hstep : (x :: (pre ++ post)).orderedInsert (fun x y => rank x ≤ rank y) z =
        x :: (pre ++ post).orderedInsert (fun x y => rank x ≤ rank y) z :=
      List.orderedInsert_of_not_le _ _ hx
    rw [List.cons_append, hstep, ih fun y hy => hpre y (List.mem_cons_of_mem x hy)]
    rfl

/-- The call answers 1 exactly when a member has the score and the key, and only stores its new
value then; otherwise it answers 0 and the members become those of the sorted insertion. The place
is the one of a plain scan. -/
theorem kvsSkiptableZadd_plain (h : L.Holds ns) {p : Ptr} {level : ℕ} (hp : L.Fresh p)
    (hlevel : level ≤ skipMaxLevel) (k v : CString) (score : S) :
    (∃ u update, Fuel.Returns (fun n => L.scan (zaddLess score k) 0 n L.header) u ∧
      Fuel.Returns (fun n => L.descend (zaddLess score k) n L.level L.header fun _ => none)
        (u, update)) ∧
    ∃ r L', Fuel.Returns (fun n => kvsSkiptableZadd n L p level k v score) (r, L') ∧
      (r = 1 ↔ ∃ x ∈ ns, x.score = score ∧ x.key = k) ∧
      (r = 1 → ∃ pre c post f, ns = pre ++ c :: post ∧ c.score = score ∧ c.key = k ∧
        L.nodes c.ptr = some (c.node f) ∧
        L' = L.setNode c.ptr (some { c.node f with value := v }) ∧
        L'.Holds (pre ++ { c with value := v } :: post)) ∧
      (r ≠ 1 → r = 0 ∧
        L'.Holds (ns.orderedInsert (fun x y => rank x ≤ rank y) ⟨p, k, v, score, level⟩)) := by
  refine ⟨h.same_place score k, ?_⟩
  obtain ⟨pre, post, L', hlo, -, ⟨c, rfl, hsc, hk, hret, hR, f, hf, hL'⟩ | ⟨rfl, hhi, hret, hR⟩⟩ :=
    h.repr.zadd h.sorted hp.2 hp.1 hlevel k v score
  · refine ⟨1, L', hret, iff_of_true rfl ⟨c, by simp, hsc, hk⟩, fun _ => ?_, fun hne => absurd rfl hne⟩
    exact ⟨pre, c, post, f, rfl, hsc, hk, hf, hL', hR, pairwise_replace h.sorted rfl⟩
  · have hno : ¬ ∃ x ∈ pre ++ post, x.score = score ∧ x.key = k := by
      rintro ⟨x, hx, hsc, hk⟩
      have hrank : rank x = toLex (score, k) := by rw [rank, hsc, hk]
      obtain hx | hx := List.mem_append.mp hx
      · exact (hlo x hx).ne hrank
      · exact (hhi x hx).ne' hrank
    have hsplit : SplitAt (pre ++ post) score k pre post :=
      ⟨rfl, hlo, fun x hx => (hhi x hx).not_gt⟩
    refine ⟨0, L', hret, iff_of_false (by decide) hno, fun he => absurd he (by decide), fun _ => ⟨rfl, ?_⟩⟩
    rw [hsplit.orderedInsert rfl]
    exact ⟨hR, pairwise_insert h.sorted hlo hhi⟩

/-- Behind `a` at height 0 comes `b` at height 3, and `a` is then found again. -/
theorem kvsSkiptableZadd_plain_two : ∃ L₁ L₂ L₃ : SkipList ℕ,
    L₁.Holds [⟨2, letterA, .empty, 1, 0⟩] ∧
    Fuel.Returns (fun n => kvsSkiptableZadd n L₁ 3 3 letterB .empty 2) (0, L₂) ∧
    L₂.Holds [⟨2, letterA, .empty, 1, 0⟩, ⟨3, letterB, .empty, 2, 3⟩] ∧
    Fuel.Returns (fun n => kvsSkiptableZadd n L₂ 4 5 letterA letterB 1) (1, L₃) := by
  obtain ⟨L₁, -, hH₁, hf₁⟩ := first_zadd letterA .empty 1 (Nat.zero_le _)
  obtain ⟨-, r, L₂, hret₂, hone, -, hnew⟩ :=
    kvsSkiptableZadd_plain hH₁ hf₁.1 (show 3 ≤ skipMaxLevel by decide) letterB .empty 2
  have hr : r ≠ 1 := by
    rintro rfl
    obtain ⟨x, hx, hscore, -⟩ := hone.mp rfl
    rw [List.mem_singleton.mp hx] at hscore
    exact absurd hscore (by decide)
  obtain ⟨rfl, hH⟩ := hnew hr
  have hH₂ : L₂.Holds [⟨2, letterA, .empty, 1, 0⟩, ⟨3, letterB, .empty, 2, 3⟩] := by
    rwa [List.orderedInsert_of_not_le (r := fun x y : Member ℕ => rank x ≤ rank y) []
      (show ¬ rank ⟨3, letterB, .empty, 2, 3⟩ ≤ rank ⟨2, letterA, .empty, 1, 0⟩ by decide)] at hH
  have hf₂ : L₂.Fresh 4 := hf₁.2.zadd (by decide) hret₂
  obtain ⟨-, r, L₃, hret₃, hone, -, -⟩ :=
    kvsSkiptableZadd_plain hH₂ hf₂ (show 5 ≤ skipMaxLevel by decide) letterA letterB 1
  obtain rfl := hone.mpr ⟨_, List.mem_cons_self, rfl, rfl⟩
  exact ⟨L₁, L₂, L₃, hH₁, hret₂, hH₂, hret₃⟩

end SkipList
end KvStore
