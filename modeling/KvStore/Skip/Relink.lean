import KvStore.Skip.Repr

/-! Linking and unlinking a node, level by level. Each round puts one node on one more level, or
takes it off one, by a write to the last node before it on that level. -/
namespace KvStore
open Levels Member

variable {S : Type*}

namespace SkipList

variable {L L' : SkipList S} {a b hi p : List (Member S)} {v x z : Member S} {i : ℕ}
  {s s' : ℕ → Bool}

/-- A node has an address of its own. -/
theorem ptr_ne_of_nodup (hd : ((p ++ z :: hi).map ptr).Nodup) :
    (∀ y ∈ p, y.ptr ≠ z.ptr) ∧ ∀ y ∈ hi, y.ptr ≠ z.ptr := by
  rw [List.map_append, List.map_cons, List.nodup_middle, List.nodup_cons, List.mem_append] at hd
  refine ⟨fun y hy he => hd.1 (.inl ?_), fun y hy he => hd.1 (.inr ?_)⟩
  · exact he ▸ List.mem_map_of_mem hy
  · exact he ▸ List.mem_map_of_mem hy

/-- The heap after one node went on or off level `i` is linked for its new levels. -/
theorem Linked.toggle {w : Ptr} (h : L.Linked (vis z.ptr s) (a ++ v :: (b ++ z :: hi)))
    (hd : ((a ++ v :: (b ++ z :: hi)).map ptr).Nodup) (hb : ∀ y ∈ b, y.height < i)
    (hv : i ≤ v.height) (hs : ∀ k, k ≠ i → s' k = s k)
    (hw : w = addr (nextAt (vis z.ptr s') i (b ++ z :: hi)))
    (hother : ∀ q, q ≠ v.ptr → q ≠ z.ptr → L'.nodes q = L.nodes q)
    (hv' : ∀ f, L.nodes v.ptr = some (v.node f) → L'.nodes v.ptr = some (v.node (f.set i w)))
    (hz' : ∀ f, L.nodes z.ptr = some (z.node f) → ∃ g, L'.nodes z.ptr = some (z.node g) ∧
      g.length = f.length ∧ (∀ k, k ≠ i → g[k]? = f[k]?) ∧
      (s' i = true → g[i]? = some (addr (nextAt (upTo height) i hi)))) :
    L'.Linked (vis z.ptr s') (a ++ v :: (b ++ z :: hi)) := by
  have hdv := ptr_ne_of_nodup hd
  have hdz := ptr_ne_of_nodup (p := a ++ v :: b) (by simpa using hd)
  -- every node but `z` is on the same levels as before
  have hsame : ∀ y : Member S, y.ptr ≠ z.ptr → ∀ k, vis z.ptr s' y k = vis z.ptr s y k := by
    intro y hy k
    rw [vis_of_ne hy, vis_of_ne hy]
  have hsame' : ∀ y : Member S, ∀ k, k ≠ i → vis z.ptr s' y k = vis z.ptr s y k := by
    intro y k hk
    by_cases hy : y.ptr = z.ptr
    · simp [vis, hy, hs k hk]
    · exact hsame y hy k
  have hvz : v.ptr ≠ z.ptr := hdz.1 v (by simp)
  have hbz : ∀ y ∈ b, y.ptr ≠ z.ptr ∧ y.ptr ≠ v.ptr := fun y hy =>
    ⟨hdz.1 y (by simp [hy]), hdv.2 y (by simp [hy])⟩
  have hhi : ∀ y ∈ hi, y.ptr ≠ z.ptr ∧ y.ptr ≠ v.ptr := fun y hy =>
    ⟨hdz.2 y hy, hdv.2 y (by simp [hy])⟩
  have ha : ∀ y ∈ a, y.ptr ≠ z.ptr ∧ y.ptr ≠ v.ptr := fun y hy =>
    ⟨hdz.1 y (by simp [hy]), hdv.1 y hy⟩
  intro c x d hcd
  obtain ⟨f, hf, hlen, hnext⟩ := h c x d hcd
  obtain ⟨e, rfl, rfl⟩ | ⟨rfl, rfl, rfl⟩ | ⟨e, -, hrest⟩ := split_cases hcd
  · have hx := ha x (by simp)
    refine ⟨f, (hother _ hx.2 hx.1).trans hf, hlen, fun k hk hon => ?_⟩
    rw [hsame x hx.1] at hon
    rw [hnext k hk hon]
    by_cases hki : k = i
    · subst hki
      have hvon : vis z.ptr s v k = true := by rw [vis_of_ne hvz]; simpa using hv
      rw [nextAt_append_on hvon, nextAt_append_on ((hsame v hvz k).trans hvon)]
      refine congrArg _ (congrArg _ (nextAt_congr fun y hy => (hsame y ?_ k).symm))
      obtain hy | hy := List.mem_append.mp hy
      · exact (ha y (by simp [hy])).1
      · rwa [List.mem_singleton.mp hy]
    · exact congrArg _ (congrArg _ (nextAt_congr fun y _ => (hsame' y k hki).symm))
  · refine ⟨f.set i w, hv' f hf, by simpa using hlen, fun k hk hon => ?_⟩
    by_cases hki : k = i
    · subst hki
      rw [List.getElem?_set_self (by omega), hw]
    · rw [List.getElem?_set_ne (Ne.symm hki), hnext k hk (by rwa [← hsame' x k hki])]
      exact congrArg _ (congrArg _ (nextAt_congr fun y _ => (hsame' y k hki).symm))
  · obtain ⟨e', rfl, rfl⟩ | ⟨-, rfl, rfl⟩ | ⟨e', -, rfl⟩ := split_cases hrest
    · have hx := hbz x (by simp)
      refine ⟨f, (hother _ hx.2 hx.1).trans hf, hlen, fun k hk hon => ?_⟩
      have hki : k ≠ i := by
        rintro rfl
        exact absurd hk (not_le.mpr (hb x (by simp)))
      rw [hsame x hx.1] at hon
      rw [hnext k hk hon]
      exact congrArg _ (congrArg _ (nextAt_congr fun y _ => (hsame' y k hki).symm))
    · obtain ⟨g, hg, hglen, hgk, hgi⟩ := hz' f hf
      refine ⟨g, hg, hglen.trans hlen, fun k hk hon => ?_⟩
      have hvis : nextAt (vis x.ptr s') k d = nextAt (upTo height) k d :=
        nextAt_congr fun y hy => vis_of_ne (hhi y hy).1 k
      have hvis' : nextAt (vis x.ptr s) k d = nextAt (upTo height) k d :=
        nextAt_congr fun y hy => vis_of_ne (hhi y hy).1 k
      rw [vis_self] at hon
      by_cases hki : k = i
      · subst hki
        rw [hgi hon, hvis]
      · rw [hgk k hki, hnext k hk (by rwa [vis_self, ← hs k hki]), hvis, hvis']
    · have hx := hhi x (by simp)
      refine ⟨f, (hother _ hx.2 hx.1).trans hf, hlen, fun k hk hon => ?_⟩
      rw [hsame x hx.1] at hon
      rw [hnext k hk hon]
      exact congrArg _ (congrArg _ (nextAt_congr fun y hy => (hsame y
        (hhi y (by simp [hy])).1 k).symm))

theorem write_eq {q w : Ptr} {node : SkipNode S} (hq : L.nodes q = some node)
    (hi : i < node.forward.length) :
    L.write q i w = some (L.setNode q (some { node with forward := node.forward.set i w })) := by
  simp [SkipList.write, hq, hi]

/-- Only the nodes may differ. -/
structure SameFields (L L' : SkipList S) : Prop where
  level : L'.level = L.level
  header : L'.header = L.header
  length : L'.length = L.length

theorem SameFields.refl (L : SkipList S) : L.SameFields L := ⟨rfl, rfl, rfl⟩

theorem SameFields.trans {L₁ L₂ L₃ : SkipList S} (h : L₁.SameFields L₂) (h' : L₂.SameFields L₃) :
    L₁.SameFields L₃ :=
  ⟨h'.level.trans h.level, h'.header.trans h.header, h'.length.trans h.length⟩

/-- Behind the last node on a level comes the node at hand, when it is on it, and then the
rest. -/
theorem nextAt_between (hd : ((p ++ z :: hi).map ptr).Nodup) (hab : p = a ++ v :: b)
    (hb : ∀ y ∈ b, upTo height y i = false) (s : ℕ → Bool) :
    nextAt (vis z.ptr s) i (b ++ z :: hi) =
      if s i = true then some z else nextAt (upTo height) i hi := by
  obtain ⟨hp, hhi⟩ := ptr_ne_of_nodup hd
  have hbz : ∀ y ∈ b, y.ptr ≠ z.ptr := fun y hy => hp y (by simp [hab, hy])
  rw [nextAt_append_of_off fun y hy => (vis_of_ne (hbz y hy) i).trans (hb y hy)]
  by_cases hs : s i = true
  · rw [if_pos hs, nextAt_cons_on (by simpa using hs)]
  · rw [if_neg hs, nextAt_cons_off (by simpa using hs)]
    exact nextAt_congr fun y hy => vis_of_ne (hhi y hy) i

variable {update : ℕ → Option Ptr}

theorem link_round (h : L.Linked (vis z.ptr s) (p ++ z :: hi))
    (hd : ((p ++ z :: hi).map ptr).Nodup) (hv : IsLast (upTo height) i p v)
    (hu : update i = some v.ptr) (hz : i ≤ z.height) (hs : s i = false) :
    ∃ L', (∀ count, link z.ptr update (count + 1) i L = link z.ptr update count (i + 1) L') ∧
      L'.Linked (vis z.ptr (Function.update s i true)) (p ++ z :: hi) ∧ L.SameFields L' := by
  obtain ⟨a, b, hab, hon, hb⟩ := hv
  have hnext := nextAt_between hd hab hb
  have hvz : v.ptr ≠ z.ptr := (ptr_ne_of_nodup hd).1 v (by simp [hab])
  subst hab
  rw [List.append_assoc, List.cons_append] at h hd ⊢
  have hvi : i ≤ v.height := by simpa using hon
  obtain ⟨f, hf, hflen, -⟩ := h a v (b ++ z :: hi) rfl
  obtain ⟨g, hg, hglen, -⟩ := h (a ++ v :: b) z hi (by simp)
  have hread := h.read (x := v) rfl hvi (by rw [vis_of_ne hvz]; exact hon)
  rw [hnext s, hs, if_neg (by simp)] at hread
  set w := addr (nextAt (upTo height) i hi) with hw
  have hwz : L.write z.ptr i w = some (L.setNode z.ptr (some (z.node (g.set i w)))) :=
    write_eq hg (by simp [node]; omega)
  have hvnode : (L.setNode z.ptr (some (z.node (g.set i w)))).nodes v.ptr = some (v.node f) := by
    simp [hvz, hf]
  have hwv : (L.setNode z.ptr (some (z.node (g.set i w)))).write v.ptr i z.ptr =
      some ((L.setNode z.ptr (some (z.node (g.set i w)))).setNode v.ptr
        (some (v.node (f.set i z.ptr)))) :=
    write_eq hvnode (by simp [node]; omega)
  refine ⟨(L.setNode z.ptr (some (z.node (g.set i w)))).setNode v.ptr
    (some (v.node (f.set i z.ptr))), fun count => ?_, ?_, ?_⟩
  · simp only [link, hu, Option.bind_some, hread, hwz, hwv]
  · refine h.toggle hd (by simpa using hb) hvi (fun k hk => by simp [hk])
      (w := z.ptr) ?_ (fun q hqv hqz => ?_) (fun f' hf' => ?_) fun g' hg' => ?_
    · simp [hnext]
    · simp [hqv, hqz]
    · rw [hf] at hf'
      obtain rfl : f = f' := by simpa [node] using hf'
      simp
    · rw [hg] at hg'
      obtain rfl : g = g' := by simpa [node] using hg'
      refine ⟨g.set i w, by simp [hvz.symm], by simp, fun k hk => ?_, fun _ => ?_⟩
      · exact List.getElem?_set_ne (Ne.symm hk)
      · exact List.getElem?_set_self (by omega)
  · exact ⟨rfl, rfl, rfl⟩

theorem unlink_round (h : L.Linked (vis z.ptr s) (p ++ z :: hi))
    (hd : ((p ++ z :: hi).map ptr).Nodup) (hv : IsLast (upTo height) i p v)
    (hu : update i = some v.ptr) (hz : i ≤ z.height) (hs : s i = true) :
    ∃ L', (∀ count, unlink z.ptr update (count + 1) i L =
        unlink z.ptr update count (i + 1) L') ∧
      L'.Linked (vis z.ptr (Function.update s i false)) (p ++ z :: hi) ∧ L.SameFields L' := by
  obtain ⟨a, b, hab, hon, hb⟩ := hv
  have hnext := nextAt_between hd hab hb
  have hvz : v.ptr ≠ z.ptr := (ptr_ne_of_nodup hd).1 v (by simp [hab])
  have hhi := (ptr_ne_of_nodup hd).2
  subst hab
  rw [List.append_assoc, List.cons_append] at h hd ⊢
  have hvi : i ≤ v.height := by simpa using hon
  obtain ⟨f, hf, hflen, -⟩ := h a v (b ++ z :: hi) rfl
  have hread := h.read (x := v) rfl hvi (by rw [vis_of_ne hvz]; exact hon)
  rw [hnext s, if_pos hs] at hread
  have hreadz := h.read (x := z) (a := a ++ v :: b) (b := hi) (by simp) hz (by simpa using hs)
  rw [nextAt_congr fun y hy => vis_of_ne (hhi y hy) i] at hreadz
  set w := addr (nextAt (upTo height) i hi) with hw
  have hwv : L.write v.ptr i w = some (L.setNode v.ptr (some (v.node (f.set i w)))) :=
    write_eq hf (by simp [node]; omega)
  refine ⟨L.setNode v.ptr (some (v.node (f.set i w))), fun count => ?_, ?_, ?_⟩
  · simp only [unlink, hu, Option.bind_some, hread, addr_some, ne_eq, not_true_eq_false, if_false,
      hreadz, hwv]
  · refine h.toggle hd (by simpa using hb) hvi (fun k hk => by simp [hk])
      (w := w) ?_ (fun q hqv hqz => ?_) (fun f' hf' => ?_) fun g' hg' => ?_
    · simp [hnext, hw]
    · simp [hqv]
    · rw [hf] at hf'
      obtain rfl : f = f' := by simpa [node] using hf'
      simp
    · exact ⟨g', by simp [hvz.symm, hg'], rfl, fun _ _ => rfl, by simp⟩
  · exact ⟨rfl, rfl, rfl⟩

/-- The nodes recorded for the levels up to `h` are the last ones on them. -/
def Recorded (update : ℕ → Option Ptr) (h : ℕ) (p : List (Member S)) : Prop :=
  ∀ j ≤ h, ∃ v, update j = some v.ptr ∧ IsLast (upTo height) j p v

theorem link_loop (hd : ((p ++ z :: hi).map ptr).Nodup) (hrec : Recorded update z.height p) :
    ∀ (count i : ℕ) {L : SkipList S}, i + count = z.height + 1 →
      L.Linked (vis z.ptr fun k => decide (k < i)) (p ++ z :: hi) →
      ∃ L', link z.ptr update count i L = some L' ∧ L.SameFields L' ∧
        L'.Linked (upTo height) (p ++ z :: hi)
  | 0, i, L, hi', h => by
    refine ⟨L, rfl, .refl L, h.congr fun x hx k => ?_⟩
    by_cases hxz : x.ptr = z.ptr
    · obtain rfl : x = z := List.inj_on_of_nodup_map hd hx (by simp) hxz
      rw [vis_self, upTo, decide_eq_decide]
      omega
    · exact (vis_of_ne hxz k).symm
  | count + 1, i, L, hi', h => by
    obtain ⟨v, hu, hv⟩ := hrec i (by omega)
    obtain ⟨L₁, hlink, h₁, hsame⟩ := link_round h hd hv hu (by omega) (by simp)
    have hvis : Function.update (fun k => decide (k < i)) i true = fun k => decide (k < i + 1) := by
      funext k
      by_cases hk : k = i
      · simp [hk]
      · simp [hk]
        omega
    rw [hvis] at h₁
    obtain ⟨L', hL', hsame', h'⟩ := link_loop hd hrec count (i + 1) (by omega) h₁
    exact ⟨L', by rw [hlink, hL'], hsame.trans hsame', h'⟩

/-- The loop takes the node off all its levels: on each of them it follows the node recorded,
and above them it does not. -/
theorem unlink_loop {level : ℕ} (hd : ((p ++ z :: hi).map ptr).Nodup)
    (hrec : Recorded update level p) (hz : z.height ≤ level) (hnull : z.ptr ≠ null) :
    ∀ (count i : ℕ) {L : SkipList S}, i + count = level + 1 → i ≤ z.height + 1 →
      L.Linked (vis z.ptr fun k => decide (i ≤ k ∧ k ≤ z.height)) (p ++ z :: hi) →
      ∃ L', unlink z.ptr update count i L = some L' ∧ L.SameFields L' ∧
        L'.Linked (vis z.ptr fun _ => false) (p ++ z :: hi)
  | 0, i, L, hi', hiz, h => by
    have hvis : (fun k => decide (i ≤ k ∧ k ≤ z.height)) = fun _ => false := by
      funext k
      rw [decide_eq_false_iff_not]
      omega
    exact ⟨L, rfl, .refl L, hvis ▸ h⟩
  | count + 1, i, L, hi', hiz, h => by
    obtain ⟨v, hu, hv⟩ := hrec i (by omega)
    by_cases hend : i ≤ z.height
    · obtain ⟨L₁, hlink, h₁, hsame⟩ := unlink_round h hd hv hu hend (by simpa using hend)
      have hvis : Function.update (fun k => decide (i ≤ k ∧ k ≤ z.height)) i false =
          fun k => decide (i + 1 ≤ k ∧ k ≤ z.height) := by
        funext k
        by_cases hk : k = i
        · simp [hk]
        · simp only [Function.update_of_ne hk, decide_eq_decide]
          omega
      rw [hvis] at h₁
      obtain ⟨L', hL', hsame', h'⟩ :=
        unlink_loop hd hrec hz hnull count (i + 1) (by omega) (by omega) h₁
      exact ⟨L', by rw [hlink, hL'], hsame.trans hsame', h'⟩
    · have hvis : (fun k => decide (i ≤ k ∧ k ≤ z.height)) = fun _ => false := by
        funext k
        rw [decide_eq_false_iff_not]
        omega
      rw [hvis] at h
      refine ⟨L, ?_, .refl L, h⟩
      obtain ⟨a, b, hab, hon, hb⟩ := hv
      have hread := h.read (x := v) (a := a) (b := b ++ z :: hi) (by simp [hab])
        (by simpa using hon)
        (by rw [vis_of_ne ((ptr_ne_of_nodup hd).1 v (by simp [hab]))]; exact hon)
      rw [nextAt_between hd hab hb, if_neg (by simp)] at hread
      have hne : addr (nextAt (upTo height) i hi) ≠ z.ptr := by
        cases hn : nextAt (upTo height) i hi with
        | none => exact hnull.symm
        | some y => exact (ptr_ne_of_nodup hd).2 y (nextAt_mem hn)
      simp [unlink, hu, hread, hne]

/-- A node that is on no level does not belong to the list. -/
theorem Linked.drop (h : L.Linked (vis z.ptr fun _ => false) (p ++ z :: hi))
    (hd : ((p ++ z :: hi).map ptr).Nodup)
    (hL : ∀ q, q ≠ z.ptr → L'.nodes q = L.nodes q) : L'.Linked (upTo height) (p ++ hi) := by
  obtain ⟨hp, hhi⟩ := ptr_ne_of_nodup hd
  have hne : ∀ y ∈ p ++ hi, y.ptr ≠ z.ptr := fun y hy => (List.mem_append.mp hy).elim (hp y) (hhi y)
  intro c x d hcd
  have hx : x.ptr ≠ z.ptr := hne x (by simp [hcd])
  have hdne : ∀ y ∈ d, y.ptr ≠ z.ptr := fun y hy => hne y (by simp [hcd, hy])
  have hvis : ∀ (k : ℕ) (d' : List (Member S)), (∀ y ∈ d', y.ptr ≠ z.ptr) →
      nextAt (vis z.ptr fun _ => false) k d' = nextAt (upTo height) k d' := fun k d' hd' =>
    nextAt_congr fun y hy => vis_of_ne (hd' y hy) k
  obtain ⟨e, rfl, rfl⟩ | ⟨e, rfl, rfl⟩ : (∃ e, p = c ++ x :: e ∧ d = e ++ hi) ∨
      ∃ e, c = p ++ e ∧ hi = e ++ x :: d := by
    obtain ⟨e, hc, he⟩ | ⟨e, hp', he⟩ := List.append_eq_append_iff.mp hcd
    · exact .inr ⟨e, hc, he⟩
    · cases e with
      | nil => exact .inr ⟨[], by simpa using hp'.symm, by simpa using he.symm⟩
      | cons y e =>
        simp only [List.cons_append, List.cons.injEq] at he
        obtain ⟨rfl, rfl⟩ := he
        exact .inl ⟨e, hp', rfl⟩
  · obtain ⟨f, hf, hlen, hnext⟩ := h c x (e ++ z :: hi) (by simp)
    refine ⟨f, (hL _ hx).trans hf, hlen, fun k hk hon => ?_⟩
    rw [hnext k hk (by rw [vis_of_ne hx]; exact hon), ← hvis k _ hdne]
    simp [nextAt, List.find?_append]
  · obtain ⟨f, hf, hlen, hnext⟩ := h (p ++ z :: e) x d (by simp)
    refine ⟨f, (hL _ hx).trans hf, hlen, fun k hk hon => ?_⟩
    rw [hnext k hk (by rw [vis_of_ne hx]; exact hon), hvis k _ hdne]

/-- A new node can be put anywhere, as long as it is on no level. -/
theorem Linked.addOff (h : L.Linked (upTo height) (p ++ hi))
    (hd : ((p ++ z :: hi).map ptr).Nodup) (hL : ∀ q, q ≠ z.ptr → L'.nodes q = L.nodes q)
    {f : List Ptr} (hz : L'.nodes z.ptr = some (z.node f)) (hf : f.length = z.height + 1) :
    L'.Linked (vis z.ptr fun _ => false) (p ++ z :: hi) := by
  obtain ⟨hp, hhi⟩ := ptr_ne_of_nodup hd
  intro c x d hcd
  obtain ⟨e, rfl, rfl⟩ | ⟨rfl, rfl, rfl⟩ | ⟨e, rfl, rfl⟩ := split_cases hcd
  · have hx : x.ptr ≠ z.ptr := hp x (by simp)
    obtain ⟨f, hf, hlen, hnext⟩ := h c x (e ++ hi) (by simp)
    refine ⟨f, (hL _ hx).trans hf, hlen, fun k hk hon => ?_⟩
    rw [vis_of_ne hx] at hon
    have hvis : nextAt (vis z.ptr fun _ => false) k (e ++ hi) = nextAt (upTo height) k (e ++ hi) :=
      nextAt_congr fun y hy => vis_of_ne ((List.mem_append.mp hy).elim
        (fun hy => hp y (by simp [hy])) (hhi y)) k
    rw [hnext k hk hon, ← hvis]
    simp [nextAt, List.find?_append]
  · exact ⟨f, hz, hf, fun k _ hon => by simp at hon⟩
  · have hx : x.ptr ≠ z.ptr := hhi x (by simp)
    obtain ⟨f, hf, hlen, hnext⟩ := h (p ++ e) x d (by simp)
    refine ⟨f, (hL _ hx).trans hf, hlen, fun k hk hon => ?_⟩
    rw [vis_of_ne hx] at hon
    rw [hnext k hk hon]
    exact congrArg _ (congrArg _ (nextAt_congr fun y hy =>
      (vis_of_ne (hhi y (by simp [hy])) k).symm))

end SkipList
end KvStore
