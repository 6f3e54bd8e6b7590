import KvStore.Rbtree.Rotate

/-! `rbtree_insert`: the search for the place of the new node, the red leaf hung there, and the
loop that moves a red node with a red parent upwards until it can be removed. -/
namespace KvStore
open RedBlack RedBlack.RBTree

namespace Rbtree

variable {T : Rbtree} {ctx : Ctx Cell} {d i j k : Side} {c e : Color} {A B S U V : RBTree Cell}
  {x f g u : Cell}

theorem Repr.setColor_inner (h : T.Repr (plug ctx (join d c (join k e A x B) f S)))
    (e' : Color) : (T.setColor x.ptr e').Repr (plug ctx (join d c (join k e' A x B) f S)) := by
  rw [plug_inner] at h ⊢
  exact h.setColor e'

theorem Repr.setColor_outer (h : T.Repr (plug ctx (join d c S f (join k e A x B))))
    (e' : Color) : (T.setColor x.ptr e').Repr (plug ctx (join d c S f (join k e' A x B))) := by
  rw [plug_outer] at h ⊢
  exact h.setColor e'

/-- A red uncle: the redness moves to the grandparent. -/
theorem insertFixupRound_uncle
    (h : T.Repr (plug ctx (join d .black (join k .red (join j .red A x B) f S) g
      (join i .red U u V)))) :
    ∃ T', insertFixupRound d T x.ptr = (T', g.ptr) ∧ T'.nil = T.nil ∧
      T'.Repr (plug ctx (join d .red (join k .black (join j .red A x B) f S) g
        (join i .black U u V))) := by
  have hg := h.nodeAt
  have hf := h
  rw [plug_inner] at hf
  have hx := hf
  rw [plug_inner] at hx
  have hu := h
  rw [plug_outer] at hu
  have h3 := ((h.setColor_inner .black).setColor_outer .black).setColor .red
  have e1 : T.parent x.ptr = f.ptr := hx.nodeAt.parent
  have e2 : T.parent f.ptr = g.ptr := hf.nodeAt.parent
  have e3 : T.child d.opp g.ptr = u.ptr := by simpa using hg.outer
  have e4 : T.color u.ptr = .red := hu.nodeAt.color
  refine ⟨_, ?_, ?_, h3⟩
  · simp [insertFixupRound, e1, e2, e3, e4]
  · simp

/-- Siblings are different nodes. -/
theorem Repr.sibling_ne (h : T.Repr (plug ctx (join d c (join k e A x B) f S))) :
    x.ptr ≠ ptrOf T.nil S := by
  have hn := h.nodup
  rw [((((ptrs_plug _ _).trans ((ptrs_join _ _ _ _ _).append_left _)).cons _).cons _).nodup_iff]
    at hn
  have hx : x.ptr ∈ ptrs (join k e A x B) := (mem_ptrs_join _ _ _ _ _).mpr (.inl rfl)
  have hs := ptrOf_mem_or T.nil S
  simp only [List.nodup_cons, List.nodup_append, List.mem_cons, List.mem_append, not_or] at hn
  grind

/-- A black uncle, with the red node on the outer side: one rotation ends the loop. -/
theorem insertFixupRound_outer
    (h : T.Repr (plug ctx (join d .black (join d .red (join k .red A x B) f S) g U)))
    (hU : U.color = .black) :
    ∃ T', insertFixupRound d T x.ptr = (T', x.ptr) ∧ T'.nil = T.nil ∧
      T'.Repr (plug ctx (join d .black (join k .red A x B) f (join d .red S g U))) := by
  have hf := h
  rw [plug_inner] at hf
  have hx := hf
  rw [plug_inner] at hx
  have hu := h
  rw [plug_outer] at hu
  have h3 := ((h.setColor_inner .black).setColor .red).rotate_opp
  have e1 : T.parent x.ptr = f.ptr := hx.nodeAt.parent
  have e2 : T.parent f.ptr = g.ptr := hf.nodeAt.parent
  have e3 : T.color (T.child d.opp g.ptr) = .black := by
    rw [h.nodeAt.outer, hu.color_focus, hU]
  have e4 : x.ptr ≠ T.child d.opp f.ptr := by
    rw [hf.nodeAt.outer]
    exact hf.sibling_ne
  refine ⟨_, ?_, ?_, h3⟩
  · simp [insertFixupRound, e1, e2, e3, e4]
  · simp

/-- A black uncle, with the red node on the inner side: a first rotation moves it outside. -/
theorem insertFixupRound_inner
    (h : T.Repr (plug ctx (join d .black (join d.opp .red (join d .red A x B) f S) g U)))
    (hU : U.color = .black) :
    ∃ T', insertFixupRound d T x.ptr = (T', f.ptr) ∧ T'.nil = T.nil ∧
      T'.Repr (plug ctx (join d .black (join d .red S f A) x (join d .red B g U))) := by
  have hf := h
  rw [plug_inner] at hf
  have hx := hf
  rw [plug_inner] at hx
  have hu := h
  rw [plug_outer] at hu
  have e1 : T.parent x.ptr = f.ptr := hx.nodeAt.parent
  have e2 : T.parent f.ptr = g.ptr := hf.nodeAt.parent
  have e3 : T.color (T.child d.opp g.ptr) = .black := by
    rw [h.nodeAt.outer, hu.color_focus, hU]
  have e4 : x.ptr = T.child d.opp f.ptr := by simpa using hf.nodeAt.inner.symm
  rw [join_opp] at hf
  have hr := hf.rotate
  have hr' := hr
  rw [plug_inner] at hr'
  have e5 : (rbtreeRotate d T f.ptr).parent f.ptr = x.ptr := hr'.nodeAt.parent
  have e6 : (rbtreeRotate d T f.ptr).parent x.ptr = g.ptr := hr.nodeAt.parent
  rw [← plug_inner] at hr
  have h3 := ((hr.setColor_inner .black).setColor .red).rotate_opp
  refine ⟨_, ?_, ?_, h3⟩
  · simp [insertFixupRound, e1, e2, e3, ← e4, e5, e6]
  · simp

/-- The test of the source for the side of a node finds the side the node is on. -/
theorem Repr.side_eq (h : T.Repr (plug ctx (join d c (join k e A x B) f S))) :
    (if x.ptr = T.child .left f.ptr then Side.left else .right) = d := by
  have hn := h.nodeAt
  have hs := h.sibling_ne
  cases d with
  | left =>
    rw [if_pos]
    simpa using hn.inner.symm
  | right =>
    rw [if_neg]
    have ho : T.child .left f.ptr = ptrOf T.nil S := hn.outer
    rw [ho]
    exact hs

/-- The loop ends where the red node has no red parent, with the elements where they were. -/
theorem insertFixupLoop_stop (h : T.Repr (plug ctx (join k .red A x B)))
    (hp : T.color (up T.nil ctx) = .black) :
    Fuel.Returns (fun n => insertFixupLoop n T x.ptr) T := by
  refine .last fun n => ?_
  rw [insertFixupLoop, h.nodeAt.parent, hp]
  simp

theorem insertFixupLoop_step {T' : Rbtree} {z : Ptr}
    (h : T.Repr (plug ctx (join d .black (join k .red (join j .red A x B) f S) g U)))
    (hr : insertFixupRound d T x.ptr = (T', z)) (n : ℕ) :
    insertFixupLoop (n + 1) T x.ptr = insertFixupLoop n T' z := by
  have hf := h
  rw [plug_inner] at hf
  have hx := hf
  rw [plug_inner] at hx
  have e1 : T.parent x.ptr = f.ptr := hx.nodeAt.parent
  have e2 : T.parent f.ptr = g.ptr := hf.nodeAt.parent
  rw [insertFixupLoop, e1, hf.nodeAt.color, if_pos rfl, e2]
  simp only [h.side_eq, hr]

/-- What the loop leaves behind. -/
def Rebalanced (T T' : Rbtree) (t : RBTree Cell) : Prop :=
  T'.nil = T.nil ∧ ∃ t', T'.Repr t' ∧ t'.toList = t.toList ∧ ∃ c n, t'.Balanced c n

/-- The recursion follows the red node, which moves up by two frames a round. -/
theorem insertFixupLoop_returns : ∀ (ctx : Ctx Cell) {T : Rbtree} {j : Side} {A B : RBTree Cell}
    {x : Cell} {n : ℕ}, T.Repr (plug ctx (join j .red A x B)) →
    (join j .red A x B).Balanced .red n → Fits ctx .black n →
    ∃ T', Fuel.Returns (fun n => insertFixupLoop n T x.ptr) T' ∧
      T.Rebalanced T' (plug ctx (join j .red A x B))
  | [], T, j, A, B, x, n, h, hZ, _ =>
    ⟨T, insertFixupLoop_stop h h.black, rfl, _, h, rfl, _, _, hZ⟩
  | ⟨k, .black, f, S⟩ :: rest, T, j, A, B, x, n, h, hZ, hc => by
    obtain ⟨m, hm⟩ := Fits.plug (Fits.any hc rfl .red) hZ
    exact ⟨T, insertFixupLoop_stop h h.frameAt.color, rfl, _, h, rfl, _, _, hm⟩
  | [⟨k, .red, f, S⟩], T, j, A, B, x, n, h, hZ, hc => by
    cases hc.2.2
  | ⟨k, .red, f, S⟩ :: ⟨d, .red, g, U⟩ :: rest, T, j, A, B, x, n, h, hZ, hc => by
    cases hc.2.2.1
  | ⟨k, .red, f, S⟩ :: ⟨d, .black, g, U⟩ :: rest, T, j, A, B, x, n, h, hZ, hc => by
    obtain ⟨-, hS, ⟨e, hU⟩, hr⟩ := hc
    rw [plug_cons, plug_cons] at h ⊢
    simp only [Frame.fill] at h ⊢
    cases e with
    | red =>
      obtain ⟨U₁, u, U₂, rfl⟩ := hU.exists_join_red .left
      obtain ⟨-, hU₁, hU₂⟩ := Balanced.of_join_red hU
      obtain ⟨T₁, h1, hn1, hR⟩ := insertFixupRound_uncle h
      have hb := Balanced.join_red (a := g) d (.join_black (a := f) k hZ hS)
        (Balanced.join_black (a := u) .left hU₁ hU₂)
      obtain ⟨T₂, hT, hn2, t', hR', hl, hbal⟩ := insertFixupLoop_returns rest hR hb hr
      refine ⟨T₂, .succ (insertFixupLoop_step h h1) hT, hn2.trans hn1, t', hR', ?_, hbal⟩
      refine hl.trans (toList_plug_congr rest ?_)
      cases d <;> cases k <;> rfl
    | black =>
      obtain rfl | rfl := Side.eq_or_eq_opp d k
      · obtain ⟨T₁, h1, hn1, hR⟩ := insertFixupRound_outer h hU.color_eq
        have hb := Balanced.join_black (a := f) k hZ (.join_red (a := g) k hS hU)
        obtain ⟨m, hm⟩ := hr.plug hb
        have hR' := hR
        rw [plug_inner] at hR'
        refine ⟨T₁, .succ (insertFixupLoop_step h h1)
          (insertFixupLoop_stop hR' hR.nodeAt.color), hn1, _, hR, ?_, _, _, hm⟩
        refine toList_plug_congr rest ?_
        cases k <;> simp [join, toList]
      · obtain ⟨A', B', hj⟩ : ∃ A' B', join j .red A x B = join d .red A' x B' := by
          cases j
          · exact eq_join d .red A B x
          · exact eq_join d .red B A x
        rw [hj] at h hZ ⊢
        obtain ⟨-, hA, hB⟩ := Balanced.of_join_red hZ
        obtain ⟨T₁, h1, hn1, hR⟩ := insertFixupRound_inner h hU.color_eq
        have hb := Balanced.join_black (a := x) d (.join_red (a := f) d hS hA)
          (.join_red (a := g) d hB hU)
        obtain ⟨m, hm⟩ := hr.plug hb
        have hR' := hR
        rw [plug_inner] at hR'
        refine ⟨T₁, .succ (insertFixupLoop_step h h1)
          (insertFixupLoop_stop hR' hR.nodeAt.color), hn1, _, hR, ?_, _, _, hm⟩
        refine toList_plug_congr rest ?_
        cases d <;> simp [join, toList, Side.opp]

/-- Colouring the root black keeps a tree balanced. -/
theorem Repr.blacken_root {t : RBTree Cell} (h : T.Repr t) :
    (T.setColor T.root .black).Repr (t.paint .black) := by
  cases t with
  | nil =>
    have hr : T.root = T.nil := h.root
    exact ⟨hr, trivial, h.nodup, by simp [hr], by simpa using h.untouched⟩
  | node c l a r =>
    have hr : T.root = a.ptr := h.root
    rw [hr]
    have h₀ : T.Repr (plug [] (join .left c l a r)) := h
    exact h₀.setColor .black

theorem rbtreeInsertFixup_returns {n : ℕ} (h : T.Repr (plug ctx (join j .red A x B)))
    (hZ : (join j .red A x B).Balanced .red n) (hc : Fits ctx .black n) :
    ∃ T', Fuel.Returns (fun n => rbtreeInsertFixup n T x.ptr) T' ∧ T'.nil = T.nil ∧
      ∃ t', T'.Repr t' ∧ t'.toList = (plug ctx (join j .red A x B)).toList ∧
        ∃ n, t'.Balanced .black n := by
  obtain ⟨T₁, hT, hn, t, hR, hl, c, m, hm⟩ := insertFixupLoop_returns ctx h hZ hc
  refine ⟨_, hT.bind (.some _), hn, _, hR.blacken_root, ?_, hm.paint_black⟩
  rw [toList_paint, hl]

/-- The keys increase from left to right. -/
def Sorted (l : List Cell) : Prop := l.Pairwise fun a b => a.key < b.key

/-- All elements left of the hole are below the key, all elements right of it above. -/
def Around (key : CString) (ctx : Ctx Cell) : Prop :=
  (∀ a ∈ before ctx, a.key < key) ∧ ∀ a ∈ after ctx, key < a.key

theorem Around.left {key : CString} {l r : RBTree Cell} {a : Cell} (h : Around key ctx)
    (hs : Sorted (node c l a r).toList) (hk : key < a.key) :
    Around key (⟨.left, c, a, r⟩ :: ctx) := by
  refine ⟨h.1, fun b hb => ?_⟩
  simp only [after, List.cons_append, List.mem_cons, List.mem_append] at hb
  obtain rfl | hb | hb := hb
  · exact hk
  · simp only [Sorted, toList, List.pairwise_append, List.pairwise_cons] at hs
    exact hk.trans (hs.2.1.1 b hb)
  · exact h.2 b hb

theorem Around.right {key : CString} {l r : RBTree Cell} {a : Cell} (h : Around key ctx)
    (hs : Sorted (node c l a r).toList) (hk : a.key < key) :
    Around key (⟨.right, c, a, l⟩ :: ctx) := by
  refine ⟨fun b hb => ?_, h.2⟩
  simp only [before, List.mem_append, List.mem_singleton] at hb
  obtain (hb | hb) | rfl := hb
  · exact h.1 b hb
  · simp only [Sorted, toList, List.pairwise_append] at hs
    exact (hs.2.2 b hb a (by simp)).trans hk
  · exact hk

theorem Sorted.left {l r : RBTree Cell} {a : Cell} (h : Sorted (node c l a r).toList) :
    Sorted l.toList := by
  simp only [Sorted, toList, List.pairwise_append] at h
  exact h.1

theorem Sorted.right {l r : RBTree Cell} {a : Cell} (h : Sorted (node c l a r).toList) :
    Sorted r.toList := by
  simp only [Sorted, toList, List.pairwise_append, List.pairwise_cons] at h
  exact h.2.1.2

/-- The search ends at the key or at the leaf where it belongs. -/
theorem insertDescend_returns {t : RBTree Cell} {z : Ptr} (h : T.Repr (plug ctx t))
    (hs : Sorted t.toList) (ha : Around (T.key z) ctx) :
    (∃ a ∈ t.toList, a.key = T.key z ∧
      Fuel.Returns (fun n => insertDescend T z n (up T.nil ctx) (ptrOf T.nil t)) none) ∨
    ∃ ctx', plug ctx' .nil = plug ctx t ∧ Around (T.key z) ctx' ∧
      Fuel.Returns (fun n => insertDescend T z n (up T.nil ctx) (ptrOf T.nil t))
        (some (up T.nil ctx')) := by
  induction t generalizing ctx with
  | nil => exact .inr ⟨ctx, rfl, ha, .last fun n => by simp [insertDescend]⟩
  | node c l a r ihl ihr =>
    have hn : T.NodeAt c a (up T.nil ctx) .left (ptrOf T.nil l) (ptrOf T.nil r) :=
      Repr.nodeAt (d := .left) h
    have hr : T.child .right a.ptr = ptrOf T.nil r := hn.outer
    have h₁ : T.Repr (plug (⟨.left, c, a, r⟩ :: ctx) l) := h
    have h₂ : T.Repr (plug (⟨.right, c, a, l⟩ :: ctx) r) := h
    have hane : a.ptr ≠ T.nil := by
      have hnd := h.split.2.2
      intro he
      simp [he, ptrs, toList] at hnd
    have hstep : ∀ n, insertDescend T z (n + 1) (up T.nil ctx) (ptrOf T.nil (node c l a r)) =
        if CString.strcmp (T.key z) a.key < 0 then
          insertDescend T z n a.ptr (ptrOf T.nil l)
        else if CString.strcmp (T.key z) a.key > 0 then
          insertDescend T z n a.ptr (ptrOf T.nil r) else some none := by
      intro n
      simp [insertDescend, ptrOf, hane, hn.inner, hr, hn.key]
    rcases lt_trichotomy (T.key z) a.key with hk | hk | hk
    · have hstep' := fun n => (hstep n).trans (if_pos ((CString.strcmp_neg _ _).mpr hk))
      obtain ⟨b, hb, hkb, hret⟩ | ⟨ctx', hp, ha', hret⟩ :=
        ihl h₁ hs.left (ha.left hs hk)
      · exact .inl ⟨b, by simp [toList, hb], hkb, .succ hstep' hret⟩
      · exact .inr ⟨ctx', hp, ha', .succ hstep' hret⟩
    · refine .inl ⟨a, by simp [toList], hk.symm, .last fun n => ?_⟩
      rw [hstep, (CString.strcmp_eq_zero _ _).mpr hk]
      simp
    · have hstep' := fun n => ((hstep n).trans
        (if_neg ((CString.strcmp_neg _ _).not.mpr (not_lt.mpr hk.le)))).trans
        (if_pos ((CString.strcmp_pos _ _).mpr hk))
      obtain ⟨b, hb, hkb, hret⟩ | ⟨ctx', hp, ha', hret⟩ :=
        ihr h₂ hs.right (ha.right hs hk)
      · exact .inl ⟨b, by simp [toList, hb], hkb, .succ hstep' hret⟩
      · exact .inr ⟨ctx', hp, ha', .succ hstep' hret⟩

@[simp] theorem insertLink_nil (T : Rbtree) (z y : Ptr) : (insertLink T z y).nil = T.nil := by
  simp only [insertLink]
  split_ifs <;> rfl

@[simp] theorem insertLink_key (T : Rbtree) (z y : Ptr) : (insertLink T z y).key = T.key := by
  simp only [insertLink]
  split_ifs <;> rfl

@[simp] theorem insertLink_value (T : Rbtree) (z y : Ptr) :
    (insertLink T z y).value = T.value := by
  simp only [insertLink]
  split_ifs <;> rfl

@[simp] theorem insertLink_color (T : Rbtree) (z y : Ptr) :
    (insertLink T z y).color = Function.update T.color z .red := by
  simp only [insertLink]
  split_ifs <;> rfl

@[simp] theorem insertLink_parent (T : Rbtree) (z y : Ptr) :
    (insertLink T z y).parent = Function.update T.parent z y := by
  simp only [insertLink]
  split_ifs <;> rfl

@[simp] theorem insertLink_touched (T : Rbtree) (z y : Ptr) :
    (insertLink T z y).touched = z :: T.touched := by
  simp only [insertLink]
  split_ifs <;> rfl

theorem insertLink_root {z y : Ptr} (hy : y ≠ T.nil) : (insertLink T z y).root = T.root := by
  by_cases hk : CString.strcmp (T.key z) (T.key y) < 0 <;> simp [insertLink, hy, hk]

theorem insertLink_child_self (T : Rbtree) (z y : Ptr) (e : Side) :
    (insertLink T z y).child e z = T.nil := by
  cases e <;> simp [insertLink] <;> split_ifs <;> simp

theorem insertLink_child_of_ne {T : Rbtree} {z y q : Ptr} (e : Side) (hz : q ≠ z) (hy : q ≠ y) :
    (insertLink T z y).child e q = T.child e q := by
  simp only [insertLink]
  split_ifs <;> simp [hz, hy]

/-- The second comparison with the parent puts the node on the side the search ended on. -/
theorem insertLink_child_parent {f : Frame Cell} {z : Ptr}
    (h : T.Repr (plug (f :: ctx) .nil)) (ha : Around (T.key z) (f :: ctx))
    (hz : z ∉ null :: T.nil :: ctxPtrs (f :: ctx)) :
    (insertLink T z f.elem.ptr).child f.side f.elem.ptr = z ∧
      (insertLink T z f.elem.ptr).child f.side.opp f.elem.ptr =
        T.child f.side.opp f.elem.ptr := by
  have hf := h.frameAt
  have hfn : f.elem.ptr ≠ T.nil := by
    have hnd := h.split.2.2
    intro he
    simp [ctxPtrs, he] at hnd
  have hfz : f.elem.ptr ≠ z := fun he => hz (by simp [ctxPtrs, he])
  obtain ⟨d, c, a, s⟩ := f
  cases d with
  | left =>
    have hk : T.key z < a.key := ha.2 a (by simp [after])
    simp [insertLink, hfn, hfz, hf.key, (CString.strcmp_neg _ _).mpr hk, Side.opp]
  | right =>
    have hk : a.key < T.key z := ha.1 a (by simp [before])
    have hk' := (CString.strcmp_neg _ _).not.mpr (not_lt.mpr hk.le)
    simp [insertLink, hfn, hfz, hf.key, hk', Side.opp]

/-- The new node becomes a red leaf at the hole. -/
theorem insertLink_repr {z : Ptr} (h : T.Repr (plug ctx .nil)) (ha : Around (T.key z) ctx)
    (hz : z ∉ null :: T.nil :: ctxPtrs ctx) :
    (insertLink T z (up T.nil ctx)).Repr
      (plug ctx (join .left .red .nil ⟨z, T.key z, T.value z⟩ .nil)) := by
  obtain ⟨hc, -, hnd⟩ := h.split
  have hzn : T.nil ≠ z := fun he => hz (by simp [he])
  have hzc : ∀ q ∈ ctxPtrs ctx, q ≠ z := fun q hq he => hz (by simp [← he, hq])
  have hup : up T.nil ctx ≠ z := by
    cases ctx with
    | nil => exact hzn
    | cons f ctx => exact hzc _ (by simp [ctxPtrs])
  simp only [ptrs_nil, List.append_nil, List.nodup_cons, List.mem_cons, not_or] at hnd
  refine ⟨?_, linked_plug.mpr ⟨?_, ⟨?_, trivial, trivial⟩⟩, ?_, ?_, ?_⟩
  · rw [insertLink_nil]
    cases ctx with
    | nil => simp [insertLink, ptrOf, join]
    | cons f ctx =>
      have hfn : f.elem.ptr ≠ T.nil := fun he => hnd.2.1 (by simp [ctxPtrs, he])
      rw [up_cons, insertLink_root hfn, h.root]
      exact ptrOf_plug T.nil f ctx _ _
  · rw [ptrOf_join]
    refine hc.move (insertLink_nil _ _ _) hnd.2.2 (fun q hq => ?_) (fun q hq hu d => ?_) ?_
    · simp [hzc q hq]
    · exact insertLink_child_of_ne d (hzc q hq) hu
    · rintro f rest rfl
      exact insertLink_child_parent h ha hz
  · refine ⟨by simp, by simp, by simp, by simp, ?_, ?_⟩
    · rw [insertLink_child_self, insertLink_nil]; rfl
    · rw [insertLink_child_self, insertLink_nil]; rfl
  · rw [insertLink_nil]
    refine (((ptrs_plug _ _).cons _).cons _).nodup_iff.mpr ?_
    simp only [List.mem_cons, not_or] at hz
    have hp : ptrs (join .left .red .nil (⟨z, T.key z, T.value z⟩ : Cell) .nil) = [z] := rfl
    rw [hp]
    simp only [List.nodup_cons, List.nodup_append, List.mem_cons, List.mem_append]
    grind
  · simp [hzn, h.black]
  · simp [hzn, h.untouched]

/-- `rbtree_insert` leaves the tree alone when the key is present and otherwise adds the new
node at its place in the order. -/
theorem rbtreeInsert_returns {t : RBTree Cell} {z : Ptr} {n : ℕ} (h : T.Repr t)
    (hb : t.Balanced .black n) (hs : Sorted t.toList) (hz : z ∉ null :: T.nil :: ptrs t) :
    ∃ T', Fuel.Returns (fun n => rbtreeInsert n T z) T' ∧ T'.nil = T.nil ∧
      ((∃ a ∈ t.toList, a.key = T.key z) ∧ T' = T ∨
      ∃ l r t', t.toList = l ++ r ∧ (∀ a ∈ l, a.key < T.key z) ∧ (∀ a ∈ r, T.key z < a.key) ∧
        T'.Repr t' ∧ t'.toList = l ++ ⟨z, T.key z, T.value z⟩ :: r ∧
        ∃ n, t'.Balanced .black n) := by
  have h₀ : T.Repr (plug [] t) := h
  have hroot : Around (T.key z) [] := ⟨by simp [before], by simp [after]⟩
  obtain ⟨a, ha, hk, hret⟩ | ⟨ctx, hp, hc, hret⟩ := insertDescend_returns h₀ hs hroot
  · refine ⟨T, ?_, rfl, .inl ⟨⟨a, ha, hk⟩, rfl⟩⟩
    rw [up_nil, ← h.root] at hret
    exact hret.bind (g := fun y n => insertAt n T z y) (.some T)
  · rw [plug_nil] at hp
    subst hp
    have hz' : z ∉ null :: T.nil :: ctxPtrs ctx := by
      rw [(((ptrs_plug ctx .nil).cons T.nil).cons null).mem_iff] at hz
      simpa using hz
    obtain ⟨c, m, hnil, hfit⟩ := Fits.of_plug hb
    cases hnil
    have hR := insertLink_repr h hc hz'
    obtain ⟨T', hT, hn, t', hR', hl, hb'⟩ :=
      rbtreeInsertFixup_returns hR (.red .nil .nil) hfit.black
    refine ⟨T', ?_, hn.trans (insertLink_nil _ _ _), .inr ⟨before ctx, after ctx, t', ?_, hc.1,
      hc.2, hR', ?_, hb'⟩⟩
    · rw [up_nil, ← h.root] at hret
      exact hret.bind (g := fun y n => insertAt n T z y) hT
    · simp [toList_plug, toList]
    · rw [hl, toList_plug]
      simp [join, toList]

end Rbtree
end KvStore
