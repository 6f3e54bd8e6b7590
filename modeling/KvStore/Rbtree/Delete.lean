import KvStore.Rbtree.Insert

/-! `rbtree_delete`: the node that is unlinked, and the loop that moves the missing black
upwards. The loop may start at the sentinel, whose parent field then holds the real parent. -/
namespace KvStore
open RedBlack RedBlack.RBTree

namespace Rbtree

variable {T : Rbtree} {ctx rest : Ctx Cell} {d j : Side} {c e : Color}
  {t A B F N S : RBTree Cell} {p w x : Cell}

/-- The heap holds `plug ctx t` and the parent field of the subtree `t` is right, also when
`t` is the sentinel. -/
structure Focus (T : Rbtree) (ctx : Ctx Cell) (t : RBTree Cell) : Prop where
  repr : T.Repr (plug ctx t)
  parent : T.parent (ptrOf T.nil t) = up T.nil ctx

theorem Repr.focus (h : T.Repr (plug ctx (join d c A x B))) : T.Focus ctx (join d c A x B) :=
  ⟨h, by rw [ptrOf_join]; exact h.nodeAt.parent⟩

/-- A subtree other than the sentinel has the right parent field in any case. -/
theorem Focus.of_repr (h : T.Repr (plug ctx t))
    (hp : t = .nil → T.parent T.nil = up T.nil ctx) : T.Focus ctx t := by
  cases t with
  | nil => exact ⟨h, hp rfl⟩
  | node c l a r => exact Repr.focus (d := .left) h

theorem Focus.rotate (h : T.Focus (⟨d, c, p, join d e N w F⟩ :: rest) t) :
    (rbtreeRotate d T p.ptr).Focus (⟨d, c, p, N⟩ :: ⟨d, e, w, F⟩ :: rest) t := by
  have hr : T.Repr (plug rest (join d c t p (join d e N w F))) := h.repr
  refine .of_repr hr.rotate fun ht => ?_
  subst ht
  rw [rotate_nil]
  exact hr.rotate_parent_nil.trans h.parent

theorem Focus.setColor_parent (h : T.Focus (⟨d, c, p, S⟩ :: rest) t) (e : Color) :
    (T.setColor p.ptr e).Focus (⟨d, e, p, S⟩ :: rest) t := by
  have hr : T.Repr (plug rest (join d c t p S)) := h.repr
  exact ⟨hr.setColor e, h.parent⟩

theorem Focus.setColor_sibling (h : T.Focus (⟨d, c, p, join j e N w F⟩ :: rest) t)
    (e' : Color) : (T.setColor w.ptr e').Focus (⟨d, c, p, join j e' N w F⟩ :: rest) t := by
  have hr : T.Repr (plug rest (join d c t p (join j e N w F))) := h.repr
  exact ⟨hr.setColor_outer e', h.parent⟩

theorem Focus.sibling (h : T.Focus (⟨d, c, p, join j e N w F⟩ :: rest) t) :
    T.Repr (plug (⟨d.opp, c, p, t⟩ :: rest) (join j e N w F)) := by
  have hr : T.Repr (plug rest (join d c t p (join j e N w F))) := h.repr
  rwa [plug_outer] at hr

theorem deleteRedSibling_black (h : T.Focus (⟨d, c, p, join j .black N w F⟩ :: rest) t) :
    deleteRedSibling d T (ptrOf T.nil t) w.ptr = (T, w.ptr) := by
  simp [deleteRedSibling, h.sibling.nodeAt.color]

theorem deleteRedSibling_red (h : T.Focus (⟨d, .black, p, join d .red N w F⟩ :: rest) t) :
    ∃ T', deleteRedSibling d T (ptrOf T.nil t) w.ptr = (T', ptrOf T.nil N) ∧ T'.nil = T.nil ∧
      T'.Focus (⟨d, .red, p, N⟩ :: ⟨d, .black, w, F⟩ :: rest) t := by
  have h3 := ((h.setColor_sibling .black).setColor_parent .red).rotate
  have e1 : T.parent (ptrOf T.nil t) = p.ptr := h.parent
  have e2 := h3.parent
  have e3 := h3.repr.frameAt.outer
  simp only [rotate_nil, setColor_nil, up_cons] at e2 e3
  refine ⟨_, ?_, ?_, h3⟩
  · simp [deleteRedSibling, h.sibling.nodeAt.color, e1, e2, e3]
  · simp

/-- The test of the source on the two children of the sibling. -/
theorem sibling_children (h : T.Focus (⟨d, c, p, join d e N w F⟩ :: rest) t) :
    T.color (T.child .left w.ptr) = .black ∧ T.color (T.child .right w.ptr) = .black ↔
      N.color = .black ∧ F.color = .black := by
  have hw := h.sibling
  have hN := hw
  rw [plug_inner] at hN
  have hF := hw
  rw [plug_outer] at hF
  have e1 : T.color (T.child d w.ptr) = N.color := by rw [hw.nodeAt.inner, hN.color_focus]
  have e2 : T.color (T.child d.opp w.ptr) = F.color := by rw [hw.nodeAt.outer, hF.color_focus]
  cases d with
  | left => rw [e1, show Side.right = Side.left.opp from rfl, e2]
  | right => rw [e1, show Side.left = Side.right.opp from rfl, e2, and_comm]

/-- Both children of the sibling black: the missing black moves to the parent. -/
theorem deleteBlackSibling_both (h : T.Focus (⟨d, c, p, join d .black N w F⟩ :: rest) t)
    (hN : N.color = .black) (hF : F.color = .black) :
    deleteBlackSibling d T (ptrOf T.nil t) w.ptr = (T.setColor w.ptr .red, p.ptr) ∧
      (T.setColor w.ptr .red).Repr (plug rest (join d c t p (join d .red N w F))) := by
  refine ⟨?_, (h.setColor_sibling .red).repr⟩
  have e1 : T.parent (ptrOf T.nil t) = p.ptr := h.parent
  rw [deleteBlackSibling, if_pos ((sibling_children h).mpr ⟨hN, hF⟩)]
  simp [e1]

theorem deleteOuterRed_repr {F₁ F₂ : RBTree Cell} {f : Cell}
    (h : T.Focus (⟨d, c, p, join d .black N w (join j .red F₁ f F₂)⟩ :: rest) t) :
    ∃ T', deleteOuterRed d T (ptrOf T.nil t) w.ptr = (T', T'.root) ∧ T'.nil = T.nil ∧
      T'.Repr (plug rest (join d c (join d .black t p N) w (join j .black F₁ f F₂))) := by
  have e1 : T.parent (ptrOf T.nil t) = p.ptr := h.parent
  have e2 : T.color p.ptr = c := h.repr.frameAt.color
  have e3 : T.child d.opp w.ptr = f.ptr := by simpa using h.sibling.nodeAt.outer
  have h2 := ((h.setColor_sibling c).setColor_parent .black).sibling
  rw [plug_outer] at h2
  have h3 := h2.setColor .black
  rw [← plug_outer, ← plug_outer] at h3
  refine ⟨_, ?_, ?_, h3.rotate⟩
  · simp [deleteOuterRed, e1, e2, e3]
  · simp

/-- Only the inner child of the sibling red: a rotation below the sibling comes first. -/
theorem deleteInnerRed_red {N₁ N₂ : RBTree Cell} {n : Cell}
    (h : T.Focus (⟨d, c, p, join d .black (join d .red N₁ n N₂) w F⟩ :: rest) t)
    (hF : F.color = .black) :
    ∃ T', deleteInnerRed d T (ptrOf T.nil t) w.ptr = (T', n.ptr) ∧ T'.nil = T.nil ∧
      T'.Focus (⟨d, c, p, join d .black N₁ n (join d .red N₂ w F)⟩ :: rest) t := by
  have hF' := h.sibling
  rw [plug_outer] at hF'
  have e1 : T.color (T.child d.opp w.ptr) = .black := by
    rw [h.sibling.nodeAt.outer, hF'.color_focus, hF]
  have e2 : T.child d w.ptr = n.ptr := by simpa using h.sibling.nodeAt.inner
  have e3 : T.parent (ptrOf T.nil t) = p.ptr := h.parent
  have h1 := ((h.sibling.setColor_inner .black).setColor .red)
  have h2 := h1.rotate_opp
  rw [← plug_outer] at h2
  rw [plug_inner] at h2
  have h3 := Focus.of_repr h2 (by
    rintro rfl
    rw [rotate_nil]
    exact h1.rotate_opp_parent_nil.trans h.parent)
  have e4 := h3.parent
  have e5 := h3.repr.frameAt.outer
  simp only [rotate_nil, setColor_nil, up_cons, ptrOf_join] at e4 e5
  refine ⟨_, ?_, ?_, h3⟩
  · simp [deleteInnerRed, e1, e2, e4, e5]
  · simp

/-- A black sibling, in all: either the missing black has moved up to the parent, or it has
been supplied and the loop is sent to the root. -/
theorem deleteBlackSibling_cases {n : ℕ}
    (h : T.Focus (⟨d, c, p, join d .black N w F⟩ :: rest) t) (ht : t.Balanced .black n)
    (hw : (join d .black N w F).Balanced .black (n + 1)) :
    ∃ T' y, deleteBlackSibling d T (ptrOf T.nil t) w.ptr = (T', y) ∧ T'.nil = T.nil ∧
      ((y = p.ptr ∧ ∃ u : RBTree Cell, u.Balanced .red n ∧
          T'.Repr (plug rest (join d c t p u)) ∧
          (join d c t p u).toList = (join d c t p (join d .black N w F)).toList) ∨
        (y = T'.root ∧ ∃ q : Cell, ∃ u v : RBTree Cell, u.Balanced .black (n + 1) ∧
          v.Balanced .black (n + 1) ∧ T'.Repr (plug rest (join d c u q v)) ∧
          (join d c u q v).toList = (join d c t p (join d .black N w F)).toList)) := by
  obtain ⟨-, m, hm, ⟨eN, hN⟩, eF, hF⟩ := Balanced.of_join_black hw
  obtain rfl : m = n := by omega
  cases eF with
  | red =>
    -- the outer child is red: this is where the loop ends
    obtain ⟨F₁, f, F₂, rfl⟩ := hF.exists_join_red d
    obtain ⟨-, hF₁, hF₂⟩ := Balanced.of_join_red hF
    obtain ⟨T', h1, hn, hR⟩ := deleteOuterRed_repr h
    refine ⟨T', _, ?_, hn, .inr ⟨rfl, w, _, _, .join_black d ht hN, .join_black d hF₁ hF₂, hR,
      ?_⟩⟩
    · have hno : ¬ (N.color = .black ∧ (join d .red F₁ f F₂).color = .black) := by simp
      have e1 : T.color (T.child d.opp w.ptr) = .red := by
        have h' := h.sibling
        rw [plug_outer] at h'
        rw [h.sibling.nodeAt.outer, h'.color_focus, color_join]
      rw [deleteBlackSibling, if_neg ((sibling_children h).not.mpr hno), deleteInnerRed, if_neg]
      · exact h1
      · rw [e1]
        exact fun hh => by cases hh
    · cases d <;> simp [join, toList]
  | black =>
    cases eN with
    | black =>
      obtain ⟨h1, hR⟩ := deleteBlackSibling_both h hN.color_eq hF.color_eq
      refine ⟨_, _, h1, rfl, .inl ⟨rfl, _, .join_red d hN hF, hR, ?_⟩⟩
      cases d <;> simp [join, toList]
    | red =>
      obtain ⟨N₁, n', N₂, rfl⟩ := hN.exists_join_red d
      obtain ⟨-, hN₁, hN₂⟩ := Balanced.of_join_red hN
      obtain ⟨T₁, h1, hn1, hF1⟩ := deleteInnerRed_red h hF.color_eq
      obtain ⟨T', h2, hn, hR⟩ := deleteOuterRed_repr hF1
      refine ⟨T', _, ?_, hn.trans hn1, .inr ⟨rfl, n', _, _, .join_black d ht hN₁,
        .join_black d hN₂ hF, hR, ?_⟩⟩
      · have hno : ¬ ((join d .red N₁ n' N₂).color = .black ∧ F.color = .black) := by simp
        rw [deleteBlackSibling, if_neg ((sibling_children h).not.mpr hno), h1]
        rw [hn1] at h2
        exact h2
      · cases d <;> simp [join, toList]

/-- What the loop leaves behind: the node `x`, once coloured black, completes the tree. -/
def Supplied (T T' : Rbtree) (x : Ptr) (l : List Cell) : Prop :=
  T'.nil = T.nil ∧ ∃ t, (T'.setColor x .black).Repr t ∧ t.toList = l ∧ ∃ n, t.Balanced .black n

theorem deleteFixupLoop_root {n : ℕ} (h : T.Repr t) (ht : t.Balanced c n) :
    Fuel.Returns (fun m => deleteFixupLoop m T T.root) (T, T.root) ∧
      T.Supplied T T.root t.toList := by
  refine ⟨.last fun m => ?_, rfl, _, h.blacken_root, toList_paint _ _, ht.paint_black⟩
  simp [deleteFixupLoop]

theorem deleteFixupLoop_red {n : ℕ} (h : T.Repr (plug ctx (join d .red A x B)))
    (ht : (join d .black A x B).Balanced .black n) (hc : Fits ctx .black n) :
    Fuel.Returns (fun m => deleteFixupLoop m T x.ptr) (T, x.ptr) ∧
      T.Supplied T x.ptr (plug ctx (join d .red A x B)).toList := by
  refine ⟨.last fun m => ?_, rfl, _, h.setColor .black, ?_, hc.plug ht⟩
  · simp [deleteFixupLoop, h.nodeAt.color]
  · refine toList_plug_congr ctx ?_
    cases d <;> rfl

/-- The rest of a run of the loop from a round with a black sibling. -/
theorem deleteBlackSibling_loop {n : ℕ}
    (h : T.Focus (⟨d, c, p, join d .black N w F⟩ :: rest) t) (ht : t.Balanced .black n)
    (hfit : Fits (⟨d, c, p, join d .black N w F⟩ :: rest) .black (n + 1))
    (ih : c = .black → ∀ {T : Rbtree} {t : RBTree Cell}, T.Focus rest t →
      t.Balanced .black (n + 1) → Fits rest .black (n + 2) →
      ∃ T' y, Fuel.Returns (fun m => deleteFixupLoop m T (ptrOf T.nil t)) (T', y) ∧
        T.Supplied T' y (plug rest t).toList) :
    ∃ T' x', deleteBlackSibling d T (ptrOf T.nil t) w.ptr = (T', x') ∧
      ∃ T'' y, Fuel.Returns (fun m => deleteFixupLoop m T' x') (T'', y) ∧
        T.Supplied T'' y (plug rest (join d c t p (join d .black N w F))).toList := by
  have hw : (join d .black N w F).Balanced .black (n + 1) := by
    cases c with
    | red => exact hfit.2.1
    | black =>
      obtain ⟨⟨e, he⟩, -⟩ := hfit
      obtain ⟨rfl, -⟩ := Balanced.of_join_black he
      exact he
  obtain ⟨T', y, h1, hn, ⟨rfl, u, hu, hR, hl⟩ | ⟨rfl, q, u, v, hu, hv, hR, hl⟩⟩ :=
    deleteBlackSibling_cases h ht hw
  · rw [← toList_plug_congr rest hl]
    refine ⟨T', _, h1, ?_⟩
    cases c with
    | red =>
      obtain ⟨hret, hn', hs⟩ := deleteFixupLoop_red hR (.join_black d ht hu) hfit.2.2.black
      exact ⟨_, _, hret, hn, hs⟩
    | black =>
      obtain ⟨T'', z, hret, hn', hs⟩ := ih rfl hR.focus (.join_black d ht hu) hfit.2
      rw [ptrOf_join] at hret
      exact ⟨_, _, hret, hn'.trans hn, hs⟩
  · rw [← toList_plug_congr rest hl]
    refine ⟨T', _, h1, ?_⟩
    obtain ⟨m, hm⟩ : ∃ m, (plug rest (join d c u q v)).Balanced .black m := by
      cases c with
      | red => exact hfit.2.2.plug (.join_red d hu hv)
      | black => exact hfit.2.plug (.join_black d hu hv)
    obtain ⟨hret, -, hs⟩ := deleteFixupLoop_root hR hm
    exact ⟨_, _, hret, hn, hs⟩

/-- Below another node the focus is not the root. -/
theorem Focus.ne_root {f : Frame Cell} (h : T.Focus (f :: rest) t) : ptrOf T.nil t ≠ T.root := by
  have hn := h.repr.split.2.2
  have hr : T.root ∈ ctxPtrs (f :: rest) := by
    rw [h.repr.root]
    clear h hn
    induction rest generalizing f t with
    | nil => simp [ctxPtrs]
    | cons g rest ih =>
      have hm := ih (f := g) (t := f.fill t)
      simp only [ctxPtrs, List.cons_append, List.mem_cons, List.mem_append] at hm ⊢
      rw [plug_cons]
      exact .inr (.inr hm)
  have hx := ptrOf_mem_or T.nil t
  simp only [List.nodup_cons, List.nodup_append, List.mem_cons, List.mem_append, not_or] at hn
  grind

/-- With a node as sibling, the test for the side of `x` is right even for the sentinel. -/
theorem Focus.side_eq (h : T.Focus (⟨d, c, p, join j e N w F⟩ :: rest) t) :
    (if ptrOf T.nil t = T.child .left p.ptr then Side.left else .right) = d := by
  have hf := h.repr.frameAt
  have hn := h.repr.nodup
  have hp := (((ptrs_plug rest (join d c t p (join j e N w F))).trans
    ((ptrs_join d c t _ p).append_left _)).cons T.nil).cons null
  rw [plug_cons, Frame.fill, hp.nodup_iff] at hn
  have hw : w.ptr ∈ ptrs (join j e N w F) := (mem_ptrs_join _ _ _ _ _).mpr (.inl rfl)
  have hx := ptrOf_mem_or T.nil t
  cases d with
  | left =>
    rw [if_pos]
    exact hf.inner.symm
  | right =>
    have ho : T.child .left p.ptr = w.ptr := hf.outer.trans (ptrOf_join _ _ _ _ _ _)
    rw [ho, if_neg]
    simp only [List.nodup_cons, List.nodup_append, List.mem_cons, List.mem_append, not_or] at hn
    grind

theorem deleteFixupLoop_step {T' : Rbtree} {y : Ptr}
    (h : T.Focus (⟨d, c, p, join j e N w F⟩ :: rest) t) (ht : t.color = .black)
    (hr : deleteFixupRound d T (ptrOf T.nil t) = (T', y)) (n : ℕ) :
    deleteFixupLoop (n + 1) T (ptrOf T.nil t) = deleteFixupLoop n T' y := by
  have hp : T.parent (ptrOf T.nil t) = p.ptr := h.parent
  rw [deleteFixupLoop, if_pos ⟨h.ne_root, h.repr.color_focus.trans ht⟩, hp]
  simp only [h.side_eq, hr]

/-- The recursion follows the missing black, one frame up a round while the parent is black. -/
theorem deleteFixupLoop_returns : ∀ (ctx : Ctx Cell) {T : Rbtree} {t : RBTree Cell} {n : ℕ},
    T.Focus ctx t → t.Balanced .black n → Fits ctx .black (n + 1) →
    ∃ T' y, Fuel.Returns (fun m => deleteFixupLoop m T (ptrOf T.nil t)) (T', y) ∧
      T.Supplied T' y (plug ctx t).toList
  | [], T, t, n, h, ht, _ => by
    obtain ⟨hret, hs⟩ := deleteFixupLoop_root h.repr ht
    have hr : T.root = ptrOf T.nil t := h.repr.root
    rw [hr] at hret hs
    exact ⟨_, _, hret, hs⟩
  | ⟨d, c, p, W⟩ :: rest, T, t, n, h, ht, hc => by
    obtain ⟨e, hW⟩ : ∃ e, W.Balanced e (n + 1) := by
      cases c with
      | red => exact ⟨_, hc.2.1⟩
      | black => exact hc.1
    obtain ⟨N, w, F, rfl⟩ := hW.exists_join d
    have hp : T.parent (ptrOf T.nil t) = p.ptr := h.parent
    have hw : T.child d.opp p.ptr = w.ptr := by simpa using h.repr.frameAt.outer
    cases e with
    | black =>
      obtain ⟨T', x', hb, T'', y, hret, hs⟩ := deleteBlackSibling_loop h ht hc
        (fun _ {T} {t} hf hb hr => deleteFixupLoop_returns rest hf hb hr)
      refine ⟨T'', y, .succ (deleteFixupLoop_step h ht.color_eq ?_) hret, hs⟩
      rw [deleteFixupRound, hp, hw, deleteRedSibling_black h]
      exact hb
    | red =>
      cases c with
      | red => cases hc.2.1.color_eq.symm.trans (color_join d _ _ _ _)
      | black =>
        obtain ⟨-, hN, hF⟩ := Balanced.of_join_red hW
        obtain ⟨T₁, h1, hn, hf⟩ := deleteRedSibling_red h
        obtain ⟨N₁, q, N₂, rfl⟩ := hN.exists_join d
        have hfit : Fits (⟨d, .red, p, join d .black N₁ q N₂⟩ :: ⟨d, .black, w, F⟩ :: rest)
            .black (n + 1) := ⟨rfl, hN, ⟨_, hF⟩, hc.2⟩
        obtain ⟨T', x', hb, T'', y, hret, hn', t', hs, hl, hbal⟩ :=
          deleteBlackSibling_loop hf ht hfit (fun hh => by cases hh)
        refine ⟨T'', y, .succ (deleteFixupLoop_step h ht.color_eq ?_) hret, hn'.trans hn, t', hs,
          ?_, hbal⟩
        · rw [deleteFixupRound, hp, hw, h1]
          rw [hn] at hb
          simpa using hb
        · rw [hl]
          simp only [plug_cons, Frame.fill]
          refine toList_plug_congr rest ?_
          cases d <;> simp [join, toList]

/-- The fix-up starts at the only child of an unlinked black node. -/
theorem rbtreeDeleteFixup_returns {n : ℕ} (h : T.Focus ctx t) (ht : t.Balanced c n)
    (hc : Fits ctx .black (n + 1)) :
    ∃ T', Fuel.Returns (fun m => rbtreeDeleteFixup m T (ptrOf T.nil t)) T' ∧ T'.nil = T.nil ∧
      ∃ t', T'.Repr t' ∧ t'.toList = (plug ctx t).toList ∧ ∃ n, t'.Balanced .black n := by
  obtain ⟨T', y, hret, hn, hs⟩ : ∃ T' y,
      Fuel.Returns (fun m => deleteFixupLoop m T (ptrOf T.nil t)) (T', y) ∧
        T.Supplied T' y (plug ctx t).toList := by
    cases c with
    | black => exact deleteFixupLoop_returns ctx h ht hc
    | red =>
      obtain ⟨A, x, B, rfl⟩ := ht.exists_join_red .left
      obtain ⟨-, hA, hB⟩ := Balanced.of_join_red ht
      rw [ptrOf_join]
      exact ⟨_, _, deleteFixupLoop_red h.repr (.join_black .left hA hB) hc⟩
  refine ⟨T'.setColor y .black, ?_, hn, hs⟩
  exact hret.bind (g := fun r _ => some (r.1.setColor r.2 .black)) (.some _)

end Rbtree
end KvStore
