import KvStore.Rbtree.Repr

/-! A rotation of the heap is a rotation of the tree it holds. -/
namespace KvStore
open RedBlack RedBlack.RBTree

namespace Rbtree

@[simp] theorem rotate_nil (d : Side) (T : Rbtree) (x : Ptr) :
    (rbtreeRotate d T x).nil = T.nil := by
  simp only [rbtreeRotate]
  split_ifs <;> rfl

@[simp] theorem rotate_color (d : Side) (T : Rbtree) (x : Ptr) :
    (rbtreeRotate d T x).color = T.color := by
  simp only [rbtreeRotate]
  split_ifs <;> rfl

@[simp] theorem rotate_key (d : Side) (T : Rbtree) (x : Ptr) :
    (rbtreeRotate d T x).key = T.key := by
  simp only [rbtreeRotate]
  split_ifs <;> rfl

@[simp] theorem rotate_value (d : Side) (T : Rbtree) (x : Ptr) :
    (rbtreeRotate d T x).value = T.value := by
  simp only [rbtreeRotate]
  split_ifs <;> rfl

@[simp] theorem rotate_touched (d : Side) (T : Rbtree) (x : Ptr) :
    (rbtreeRotate d T x).touched = x :: T.child d.opp x :: T.touched := by
  simp only [rbtreeRotate]
  split_ifs <;> rfl

variable {T : Rbtree} {d : Side} {x y b p : Ptr}

/-- The pointers before a rotation about `x` that lifts `y`, whose child `b` changes sides. -/
structure Pivot (T : Rbtree) (d : Side) (x y b p : Ptr) : Prop where
  lifted : T.child d.opp x = y
  moved : T.child d y = b
  parent : T.parent x = p
  ne : y ≠ x
  moved_ne : b ≠ x

theorem Pivot.rotate_root (h : T.Pivot d x y b p) :
    (rbtreeRotate d T x).root = if p = T.nil then y else T.root := by
  have hx : x ≠ b := h.moved_ne.symm
  have hy : x ≠ y := h.ne.symm
  by_cases hb : b = T.nil <;> by_cases hp : p = T.nil <;>
    simp [rbtreeRotate, h.lifted, h.moved, h.parent, hb, hp, hx, hy] <;>
    split_ifs <;> simp_all

theorem Pivot.rotate_parent (h : T.Pivot d x y b p) (q : Ptr) :
    (rbtreeRotate d T x).parent q =
      if q = x then y else if q = y then p else if q = b ∧ b ≠ T.nil then x else T.parent q := by
  have hx : x ≠ b := h.moved_ne.symm
  have hy : x ≠ y := h.ne.symm
  by_cases hb : b = T.nil <;> by_cases hp : p = T.nil <;>
    simp [rbtreeRotate, h.lifted, h.moved, h.parent, hb, hp, hx, hy, Function.update_apply] <;>
    split_ifs <;> simp_all

/-- The child pointers after a rotation; `e` is the side of its parent on which `x` hung. -/
theorem Pivot.rotate_child (h : T.Pivot d x y b p) {e : Side}
    (he : p ≠ T.nil → T.child e p = x ∧ T.child e.opp p ≠ x) (s : Side) (q : Ptr) :
    (rbtreeRotate d T x).child s q =
      if s = d ∧ q = y then x else if p ≠ T.nil ∧ s = e ∧ q = p then y
      else if s = d.opp ∧ q = x then b else T.child s q := by
  have hx : x ≠ b := h.moved_ne.symm
  have hy : x ≠ y := h.ne.symm
  by_cases hp : p = T.nil
  · by_cases hb : b = T.nil <;>
      simp [rbtreeRotate, h.lifted, h.moved, h.parent, hb, hp, hx, hy]
  · obtain ⟨h1, h2⟩ := he hp
    obtain rfl | rfl := Side.eq_or_eq_opp d e
    · by_cases hb : b = T.nil <;>
        simp [rbtreeRotate, h.lifted, h.moved, h.parent, hb, hp, hx, hy, h1]
    · have h3 : x ≠ T.child d p := by simpa using h2.symm
      by_cases hb : b = T.nil <;>
        simp [rbtreeRotate, h.lifted, h.moved, h.parent, hb, hp, hx, hy, h3]

/-- Nothing is shared between the pieces a rotation rearranges. -/
theorem perm_rotate (ctx : Ctx Cell) (d : Side) (c e : Color) (A B C : RBTree Cell) (x y : Cell) :
    (ptrs (plug ctx (join d e (join d c A x B) y C))).Perm
      (ptrs (plug ctx (join d c A x (join d e B y C)))) := by
  unfold ptrs
  rw [toList_plug, toList_plug, toList_rotate]

/-- Rotating about `x` lifts `y` and moves the subtree `B` across. -/
theorem Repr.rotate {T : Rbtree} {ctx : Ctx Cell} {d : Side} {c e : Color} {A B C : RBTree Cell}
    {x y : Cell} (h : T.Repr (plug ctx (join d c A x (join d e B y C)))) :
    (rbtreeRotate d T x.ptr).Repr (plug ctx (join d e (join d c A x B) y C)) := by
  obtain ⟨hctx, hlin, hnd⟩ := h.split
  rw [ptrOf_join] at hctx
  obtain ⟨hx, hA, hyl⟩ := linked_join.mp hlin
  obtain ⟨hy, hB, hC⟩ := linked_join.mp hyl
  rw [ptrOf_join] at hx
  have hp := ((((ptrs_join d c A _ x).trans (((ptrs_join d e B C y).append_left (ptrs A)).cons
    x.ptr)).append_left (ctxPtrs ctx)).cons T.nil).cons null
  rw [hp.nodup_iff] at hnd
  simp only [List.nodup_cons, List.nodup_append, List.mem_cons, List.mem_append, not_or] at hnd
  obtain ⟨-, ⟨hnc, hnx, hnA, hny, hnB, hnC⟩, hdc, ⟨⟨hxA, hxy, hxB, hxC⟩, -,
    ⟨⟨hyB, hyC⟩, hdB, -, hBC⟩, hAyBC⟩, hdis⟩ := hnd
  clear hp
  have hb := ptrOf_mem_or T.nil B
  have hpiv : T.Pivot d x.ptr y.ptr (ptrOf T.nil B) (up T.nil ctx) :=
    ⟨hx.outer, hy.inner, hx.parent, Ne.symm hxy, by grind⟩
  have hup := up_mem_or T.nil ctx
  obtain ⟨k, hk, hks⟩ := hctx.exists_side (by grind) (Ne.symm hnx)
  have hd := Side.opp_ne d
  have hpar := hpiv.rotate_parent
  have hchild := hpiv.rotate_child hk
  refine ⟨?_, linked_plug.mpr ⟨?_, linked_join.mpr ⟨?_, linked_join.mpr ⟨?_, ?_, ?_⟩, ?_⟩⟩,
    ?_, ?_, ?_⟩
  · rw [hpiv.rotate_root, rotate_nil]
    cases ctx with
    | nil => simp
    | cons f ctx =>
      have : f.elem.ptr ≠ T.nil := fun he => hnc (by simp [ctxPtrs, he])
      rw [up_cons, if_neg this, h.root]
      exact ptrOf_plug T.nil f ctx _ _
  · rw [ptrOf_join]
    refine hctx.move (rotate_nil d T x.ptr) hdc (fun q hq => ?_) (fun q hq hqu s => ?_) ?_
    · simp only [rotate_color, rotate_key, rotate_value, true_and]
      rw [hpar]
      grind
    · rw [hchild]
      grind
    · rintro f rest rfl
      obtain rfl := hks f rest rfl
      rw [hchild, hchild]
      have : f.elem.ptr ∈ ctxPtrs (f :: rest) := by simp [ctxPtrs]
      have := Side.opp_ne f.side
      simp only [up_cons]
      grind
  · rw [ptrOf_join]
    refine ⟨by simpa using hy.color, by simpa using hy.key, by simpa using hy.value, ?_, ?_, ?_⟩
    · rw [hpar, rotate_nil]
      grind
    · rw [hchild]
      simp
    · rw [hchild, rotate_nil, ← hy.outer]
      grind
  · refine ⟨by simpa using hx.color, by simpa using hx.key, by simpa using hx.value, ?_, ?_, ?_⟩
    · rw [hpar]
      simp
    · rw [hchild, rotate_nil, ← hx.inner]
      grind
    · rw [hchild, rotate_nil]
      grind
  · refine hA.congr (rotate_nil d T x.ptr) (fun q hq => ⟨by simp, by simp, by simp, fun s => ?_⟩)
      (fun q hq => ?_)
    · rw [hchild]
      grind
    · rw [hpar]
      grind
  · refine hB.move (rotate_nil d T x.ptr) hdB
      (fun q hq => ⟨by simp, by simp, by simp, fun s => ?_⟩) (fun q hq hqb => ?_) (fun hBn => ?_)
    · rw [hchild]
      grind
    · rw [hpar]
      grind
    · have hBm : ptrOf T.nil B ∈ ptrs B := by
        cases B with
        | nil => exact absurd rfl hBn
        | node _ _ a _ => simp [ptrOf, ptrs, toList]
      rw [hpar]
      grind
  · refine hC.congr (rotate_nil d T x.ptr) (fun q hq => ⟨by simp, by simp, by simp, fun s => ?_⟩)
      (fun q hq => ?_)
    · rw [hchild]
      grind
    · rw [hpar]
      grind
  · rw [rotate_nil]
    exact (((perm_rotate ctx d c e A B C x y).cons T.nil).cons null).nodup_iff.mpr h.nodup
  · rw [rotate_nil, rotate_color]
    exact h.black
  · rw [rotate_nil, rotate_touched, hx.outer]
    simp [hnx, hny, h.untouched]

/-- A rotation does not write the parent field of the sentinel. -/
theorem Repr.rotate_parent_nil {T : Rbtree} {ctx : Ctx Cell} {d : Side} {c e : Color}
    {A B C : RBTree Cell} {x y : Cell}
    (h : T.Repr (plug ctx (join d c A x (join d e B y C)))) :
    (rbtreeRotate d T x.ptr).parent T.nil = T.parent T.nil := by
  have hx := h.nodeAt
  rw [ptrOf_join] at hx
  have hy := h
  rw [plug_outer] at hy
  have hn := h.nodup
  have hp := ((ptrs_plug ctx _).trans (((ptrs_join d c A _ x).trans
    (((ptrs_join d e B C y).append_left (ptrs A)).cons x.ptr)).append_left (ctxPtrs ctx)))
  rw [((hp.cons T.nil).cons null).nodup_iff] at hn
  have hb := ptrOf_mem_or T.nil B
  simp only [List.nodup_cons, List.mem_cons, List.mem_append, not_or, List.nodup_append] at hn
  obtain ⟨-, ⟨-, hnx, -, hny, -, -⟩, -, ⟨⟨-, hxy, hxB, -⟩, -⟩, -⟩ := hn
  have hpiv : T.Pivot d x.ptr y.ptr (ptrOf T.nil B) (up T.nil ctx) :=
    ⟨hx.outer, hy.nodeAt.inner, hx.parent, Ne.symm hxy, by grind⟩
  rw [hpiv.rotate_parent]
  grind

/-- The same rotation seen from the other side. -/
theorem Repr.rotate_opp {T : Rbtree} {ctx : Ctx Cell} {d : Side} {c e : Color}
    {A B C : RBTree Cell} {x y : Cell}
    (h : T.Repr (plug ctx (join d c (join d e C y B) x A))) :
    (rbtreeRotate d.opp T x.ptr).Repr (plug ctx (join d e C y (join d c B x A))) := by
  rw [← join_opp d c, ← join_opp d e] at h
  have h' := h.rotate
  rwa [join_opp d e, join_opp d c] at h'

theorem Repr.rotate_opp_parent_nil {T : Rbtree} {ctx : Ctx Cell} {d : Side} {c e : Color}
    {A B C : RBTree Cell} {x y : Cell}
    (h : T.Repr (plug ctx (join d c (join d e C y B) x A))) :
    (rbtreeRotate d.opp T x.ptr).parent T.nil = T.parent T.nil := by
  rw [← join_opp d c, ← join_opp d e] at h
  exact h.rotate_parent_nil

end Rbtree
end KvStore
