import KvStore.Rbtree.Delete

/-! The node `rbtree_delete` takes out: `z` itself or, when `z` has two children, its successor,
whose key and value then move into `z`. -/
namespace KvStore
open RedBlack RedBlack.RBTree

namespace Rbtree

variable {T : Rbtree} {ctx : Ctx Cell} {d : Side} {c : Color} {t s L R : RBTree Cell} {a y : Cell}

@[simp] theorem deleteSplice_nil (T : Rbtree) (y x : Ptr) : (deleteSplice T y x).nil = T.nil := by
  simp only [deleteSplice]
  split_ifs <;> rfl

@[simp] theorem deleteSplice_color (T : Rbtree) (y x : Ptr) :
    (deleteSplice T y x).color = T.color := by
  simp only [deleteSplice]
  split_ifs <;> rfl

@[simp] theorem deleteSplice_key (T : Rbtree) (y x : Ptr) : (deleteSplice T y x).key = T.key := by
  simp only [deleteSplice]
  split_ifs <;> rfl

@[simp] theorem deleteSplice_value (T : Rbtree) (y x : Ptr) :
    (deleteSplice T y x).value = T.value := by
  simp only [deleteSplice]
  split_ifs <;> rfl

@[simp] theorem deleteSplice_touched (T : Rbtree) (y x : Ptr) :
    (deleteSplice T y x).touched = T.touched := by
  simp only [deleteSplice]
  split_ifs <;> rfl

@[simp] theorem deleteSplice_parent (T : Rbtree) (y x : Ptr) :
    (deleteSplice T y x).parent = Function.update T.parent x (T.parent y) := by
  simp only [deleteSplice]
  split_ifs <;> rfl

theorem deleteSplice_child_of_ne {y x q : Ptr} (hxy : y ≠ x) (hq : q ≠ T.parent y) (e : Side) :
    (deleteSplice T y x).child e q = T.child e q := by
  simp only [deleteSplice]
  split_ifs <;> simp [hxy, hq]

theorem deleteSplice_root {y x : Ptr} (hxy : y ≠ x) (hp : T.parent y ≠ T.nil) :
    (deleteSplice T y x).root = T.root := by
  by_cases hl : y = T.child .left (T.parent y)
  · simp [deleteSplice, hxy, hp, ← hl]
  · simp [deleteSplice, hxy, hp, hl]

/-- The child pointers of the parent of the unlinked node. -/
theorem deleteSplice_child_parent {f : Frame Cell} (h : T.Repr (plug (f :: ctx) (join d c t y s)))
    {x : Ptr} (hx : y.ptr ≠ x) :
    (deleteSplice T y.ptr x).child f.side f.elem.ptr = x ∧
      (deleteSplice T y.ptr x).child f.side.opp f.elem.ptr = T.child f.side.opp f.elem.ptr := by
  have hf := h.frameAt
  rw [ptrOf_join] at hf
  have hp : T.parent y.ptr = f.elem.ptr := h.nodeAt.parent
  have hfn : f.elem.ptr ≠ T.nil := by
    have hn := h.split.2.2
    intro he
    simp [ctxPtrs, he] at hn
  have hs := h
  rw [plug_cons, Frame.fill] at hs
  have hne := hs.sibling_ne
  obtain ⟨k, e, b, u⟩ := f
  cases k with
  | left =>
    have hi : T.child .left b.ptr = y.ptr := hf.inner
    simp [deleteSplice, hp, hx, hfn, hi, Side.opp]
  | right =>
    have ho : T.child .left b.ptr = ptrOf T.nil u := hf.outer
    simp [deleteSplice, hp, hx, hfn, ho, hne, Side.opp]

/-- The only subtree of `y` takes its place. -/
theorem deleteSplice_focus (h : T.Repr (plug ctx (join d c t y .nil))) :
    (deleteSplice T y.ptr (ptrOf T.nil t)).Focus ctx t := by
  obtain ⟨hc, hl, hn⟩ := h.split
  obtain ⟨hy, ht, -⟩ := linked_join.mp hl
  have hp := (((ptrs_join d c t .nil y).append_left (ctxPtrs ctx)).cons T.nil).cons null
  rw [hp.nodup_iff] at hn
  have hnt : (null :: T.nil :: (ctxPtrs ctx ++ ptrs t)).Nodup := by
    refine List.Nodup.sublist ?_ hn
    simp
  simp only [ptrs_nil, List.append_nil, List.nodup_cons, List.nodup_append, List.mem_cons,
    List.mem_append, not_or] at hn
  obtain ⟨-, ⟨hnc, hny, hnt'⟩, hdc, ⟨hyt, hdt⟩, hdis⟩ := hn
  have hx := ptrOf_mem_or T.nil t
  have hxy : y.ptr ≠ ptrOf T.nil t := by grind
  have hup := up_mem_or T.nil ctx
  refine ⟨⟨?_, linked_plug.mpr ⟨?_, ?_⟩, ?_, ?_, ?_⟩, ?_⟩
  · rw [deleteSplice_nil]
    cases ctx with
    | nil =>
      have hpy : T.parent y.ptr = T.nil := hy.parent
      simp [deleteSplice, hxy, hpy]
    | cons f ctx =>
      have hpy : T.parent y.ptr = f.elem.ptr := hy.parent
      have hfn : f.elem.ptr ≠ T.nil := fun he => hnc (by simp [ctxPtrs, he])
      rw [deleteSplice_root hxy (hpy ▸ hfn), h.root]
      exact ptrOf_plug T.nil f ctx _ _
  · refine hc.move (deleteSplice_nil _ _ _) hdc (fun q hq => ?_) (fun q hq hu e => ?_) ?_
    · have hqx : q ≠ ptrOf T.nil t := by grind
      simp [hqx]
    · exact deleteSplice_child_of_ne hxy (by rwa [hy.parent]) e
    · rintro f rest rfl
      rw [deleteSplice_nil]
      exact deleteSplice_child_parent h hxy
  · refine ht.move (deleteSplice_nil _ _ _) hdt (fun q hq => ?_) (fun q hq hqt => ?_) fun htn => ?_
    · refine ⟨by simp, by simp, by simp, fun e => deleteSplice_child_of_ne hxy ?_ e⟩
      rw [hy.parent]
      grind
    · simp [hqt]
    · simp [hy.parent]
  · rw [deleteSplice_nil]
    exact (((ptrs_plug ctx t).cons T.nil).cons null).nodup_iff.mpr hnt
  · simp [h.black]
  · simp [h.untouched]
  · simp [hy.parent]

/-- A node of the tree, in focus. -/
theorem exists_plug_of_mem {t : RBTree Cell} (ha : a ∈ t.toList) :
    ∃ ctx c L R, t = plug ctx (node c L a R) := by
  induction t with
  | nil => simp [toList] at ha
  | node c l b r ihl ihr =>
    simp only [toList, List.mem_append, List.mem_cons] at ha
    obtain hl | rfl | hr := ha
    · obtain ⟨ctx, e, L, R, rfl⟩ := ihl hl
      exact ⟨ctx ++ [⟨.left, c, b, r⟩], e, L, R, by rw [plug_append]; rfl⟩
    · exact ⟨[], c, l, r, rfl⟩
    · obtain ⟨ctx, e, L, R, rfl⟩ := ihr hr
      exact ⟨ctx ++ [⟨.right, c, b, l⟩], e, L, R, by rw [plug_append]; rfl⟩

/-- Only the empty subtree has the address of the sentinel. -/
theorem Repr.ptrOf_eq_nil (h : T.Repr (plug ctx t)) : ptrOf T.nil t = T.nil ↔ t = .nil := by
  cases t with
  | nil => simp
  | node c l a r =>
    have hn := h.split.2.2
    simp only [reduceCtorEq, iff_false]
    intro he
    have hm : T.nil ∈ ptrs (node c l a r) := (mem_ptrs_join .left c l r a).mpr (.inl he.symm)
    simp [hm] at hn

theorem onlyChild_eq (h : T.Repr (plug ctx (join d c t y .nil))) :
    onlyChild T y.ptr = ptrOf T.nil t := by
  have hy := h.nodeAt
  have ho : T.child d.opp y.ptr = T.nil := hy.outer
  have hi := hy.inner
  cases d with
  | left =>
    have ho' : T.child .right y.ptr = T.nil := ho
    simp only [onlyChild, hi, ho']
    split_ifs with hn <;> simp_all
  | right =>
    have ho' : T.child .left y.ptr = T.nil := ho
    simp only [onlyChild, hi, ho']
    split_ifs with hn <;> simp_all

/-- `rbtree_mini` finds the leftmost node, which has no left child. -/
theorem rbtreeMini_returns {l r : RBTree Cell} (h : T.Repr (plug ctx (node c l a r))) :
    ∃ (ctx' : Ctx Cell) (e : Color) (b : Cell) (s : RBTree Cell),
      node c l a r = plug ctx' (node e .nil b s) ∧ before ctx' = [] ∧
      Fuel.Returns (fun n => rbtreeMini T n a.ptr) b.ptr := by
  induction l generalizing c a r ctx with
  | nil =>
    have hl : T.child .left a.ptr = T.nil := (Repr.nodeAt (d := .left) h).inner
    exact ⟨[], c, a, r, rfl, rfl, .last fun n => by simp [rbtreeMini, hl]⟩
  | node e l b s ih =>
    have hl : T.child .left a.ptr = b.ptr := (Repr.nodeAt (d := .left) h).inner
    have h' : T.Repr (plug (⟨.left, c, a, r⟩ :: ctx) (node e l b s)) := h
    have hb : b.ptr ≠ T.nil := fun he => by simpa using h'.ptrOf_eq_nil.mp he
    obtain ⟨ctx', e', b', s', hp, hbf, hret⟩ := ih h'
    refine ⟨ctx' ++ [⟨.left, c, a, r⟩], e', b', s', ?_, ?_, ?_⟩
    · rw [plug_append, ← hp]
      rfl
    · simp [before_append, before, hbf]
    · refine .succ (fun n => ?_) hret
      simp [rbtreeMini, hl, hb]

/-- The last part of `rbtree_delete`, after the node `y` above `t` was taken out. -/
theorem deleteFinish_returns {n : ℕ} {e : Color} {y : Cell} (h : T.Focus ctx t)
    (hb : (join d c t y .nil).Balanced e n) (hf : Fits ctx e n) (hy : T.color y.ptr = c) :
    ∃ T', Fuel.Returns (fun m => if T.color y.ptr = .black then
        rbtreeDeleteFixup m T (ptrOf T.nil t) else some T) T' ∧ T'.nil = T.nil ∧
      ∃ t', T'.Repr t' ∧ t'.toList = (plug ctx t).toList ∧ ∃ n, t'.Balanced .black n := by
  cases c with
  | red =>
    obtain ⟨rfl, ht, -⟩ := Balanced.of_join_red hb
    refine ⟨T, .of_eq fun m => by simp [hy], rfl, _, h.repr, rfl, hf.black.plug ht⟩
  | black =>
    obtain ⟨rfl, m, rfl, ⟨e, ht⟩, -⟩ := Balanced.of_join_black hb
    simpa [hy] using rbtreeDeleteFixup_returns h ht hf

@[simp] theorem deleteSwap_nil (T : Rbtree) (y z : Ptr) : (deleteSwap T y z).nil = T.nil := by
  simp only [deleteSwap]
  split_ifs <;> rfl

@[simp] theorem deleteSwap_color (T : Rbtree) (y z : Ptr) :
    (deleteSwap T y z).color = T.color := by
  simp only [deleteSwap]
  split_ifs <;> rfl

@[simp] theorem deleteSwap_parent (T : Rbtree) (y z : Ptr) :
    (deleteSwap T y z).parent = T.parent := by
  simp only [deleteSwap]
  split_ifs <;> rfl

/-- Key and value of the unlinked successor move into the node above it. -/
theorem deleteSwap_focus {ctx' : Ctx Cell} {y : Ptr}
    (h : T.Focus (ctx ++ ⟨d, c, a, s⟩ :: ctx') t)
    (hy : y ∉ ptrs (plug (ctx ++ ⟨d, c, a, s⟩ :: ctx') t)) :
    (deleteSwap T y a.ptr).Focus (ctx ++ ⟨d, c, ⟨a.ptr, T.key y, T.value y⟩, s⟩ :: ctx') t := by
  have hm : ∀ b : Cell, y ∈ ptrs (plug ctx' (join d c (plug ctx t) b s)) ↔
      y ∈ ctxPtrs ctx' ∨ y = b.ptr ∨ y ∈ ptrs (plug ctx t) ∨ y ∈ ptrs s := by
    intro b
    rw [(ptrs_plug _ _).mem_iff, List.mem_append, mem_ptrs_join]
  have hR : T.Repr (plug ctx' (join d c (plug ctx t) a s)) := by
    have hR := h.repr
    rwa [plug_append] at hR
  rw [plug_append] at hy
  have hy' := mt (hm a).mpr hy
  have hp : ∀ k v, y ∉ ptrs (plug ctx' (join d c (plug ctx t) ⟨a.ptr, k, v⟩ s)) :=
    fun k v => mt (hm _).mp hy'
  have hya : y ≠ a.ptr := fun he => hy' (.inr (.inl he))
  refine ⟨?_, ?_⟩
  · have h1 := (hR.setKey (T.key y)).setKey_of_notMem (hp _ _) (T.key a.ptr)
    have h2 := (h1.setValue (T.value y)).setValue_of_notMem (hp _ _) (T.value a.ptr)
    rw [plug_append]
    simpa [deleteSwap, hya, Frame.fill] using h2
  · rw [deleteSwap_parent, deleteSwap_nil, h.parent]
    cases ctx <;> rfl

/-- A child of `z` is missing, so that a deletion takes out the node itself. -/
def Single (T : Rbtree) (z : Ptr) : Prop := T.child .left z = T.nil ∨ T.child .right z = T.nil

/-- What is left of the nodes `l`, the deleted one and `r`: the node itself goes where a child is
missing, otherwise its successor does and lends it its key and value. -/
def Unlinked (T : Rbtree) (z : Ptr) (l r : List Cell) (y : Ptr) (rest : List Cell) : Prop :=
  T.Single z ∧ y = z ∧ rest = l ++ r ∨
    ¬ T.Single z ∧ ∃ b r', r = b :: r' ∧ y = b.ptr ∧ rest = l ++ ⟨z, b.key, b.value⟩ :: r'

theorem rbtreeDelete_single {n : ℕ} (h : T.Repr (plug ctx (join d c t a .nil)))
    (hb : (plug ctx (join d c t a .nil)).Balanced .black n) :
    T.Single a.ptr ∧
    ∃ T', Fuel.Returns (fun n => rbtreeDelete n T a.ptr) (T', a.ptr) ∧ T'.nil = T.nil ∧
      ∃ t', T'.Repr t' ∧ t'.toList = (plug ctx t).toList ∧ ∃ n, t'.Balanced .black n := by
  obtain ⟨e, m, hb', hf⟩ := Fits.of_plug hb
  have hy := h.nodeAt
  have hg : T.child .left a.ptr = T.nil ∨ T.child .right a.ptr = T.nil := by
    have ho : T.child d.opp a.ptr = T.nil := hy.outer
    cases d with
    | left => exact .inr ho
    | right => exact .inl ho
  have hF := deleteSplice_focus h
  obtain ⟨T', hret, hn, ht⟩ := deleteFinish_returns hF hb' hf (by simp [hy.color])
  refine ⟨hg, T', ?_, hn.trans (deleteSplice_nil _ _ _), ht⟩
  refine (hret.bind (g := fun T' _ => some (T', a.ptr)) (.some _)).congr fun k => ?_
  simp [rbtreeDelete, deleteUnlink, hg, onlyChild_eq h, deleteSwap]

theorem rbtreeDelete_double {n : ℕ} (h : T.Repr (plug ctx (node c L a R)))
    (hb : (plug ctx (node c L a R)).Balanced .black n) (hL : L ≠ .nil) (hR : R ≠ .nil) :
    ¬ T.Single a.ptr ∧
    ∃ T' b r', R.toList = b :: r' ∧ Fuel.Returns (fun n => rbtreeDelete n T a.ptr) (T', b.ptr) ∧
      T'.nil = T.nil ∧ ∃ t', T'.Repr t' ∧ t'.toList =
        before ctx ++ L.toList ++ ⟨a.ptr, b.key, b.value⟩ :: (r' ++ after ctx) ∧
        ∃ n, t'.Balanced .black n := by
  have ha := Repr.nodeAt (d := .left) h
  have hL' : T.Repr (plug (⟨.left, c, a, R⟩ :: ctx) L) := h
  have hR' : T.Repr (plug (⟨.right, c, a, L⟩ :: ctx) R) := h
  have hl : T.child .left a.ptr ≠ T.nil := by
    rw [ha.inner]
    exact mt hL'.ptrOf_eq_nil.mp hL
  have hr : T.child .right a.ptr ≠ T.nil := by
    rw [show T.child .right a.ptr = _ from ha.outer]
    exact mt hR'.ptrOf_eq_nil.mp hR
  obtain ⟨cr, rl, ra, rr, rfl⟩ : ∃ cr rl ra rr, R = node cr rl ra rr := by
    cases R with
    | nil => exact absurd rfl hR
    | node cr rl ra rr => exact ⟨_, _, _, _, rfl⟩
  obtain ⟨ctx', cy, b, t, hp, hbf, hmini⟩ :=
    rbtreeMini_returns hR'
  have hra : T.child .right a.ptr = ra.ptr := ha.outer
  rw [hp] at h hb ⊢
  -- the successor is the node in focus, the deleted one a frame above it
  have h' : T.Repr (plug (ctx' ++ ⟨.right, c, a, L⟩ :: ctx) (join .right cy t b .nil)) := by
    rw [plug_append]
    exact h
  have hb' : (plug (ctx' ++ ⟨.right, c, a, L⟩ :: ctx) (join .right cy t b .nil)).Balanced
      .black n := by
    rw [plug_append]
    exact hb
  obtain ⟨e, m, hbal, hf⟩ := Fits.of_plug hb'
  have hbn : b.ptr ∉ ptrs (plug (ctx' ++ ⟨.right, c, a, L⟩ :: ctx) t) := by
    have hn := h'.split.2.2
    have hp := (ptrs_join .right cy t .nil b).append_left
      (ctxPtrs (ctx' ++ ⟨.right, c, a, L⟩ :: ctx))
    rw [((hp.cons T.nil).cons null).nodup_iff] at hn
    rw [(ptrs_plug _ _).mem_iff]
    simp only [List.nodup_cons, List.nodup_append, List.mem_cons, List.mem_append] at hn ⊢
    grind
  have hS := deleteSwap_focus (deleteSplice_focus h') hbn
  obtain ⟨T', hret, hn, t', ht, hlist, hbal'⟩ := deleteFinish_returns hS hbal
    (hf.setElem rfl rfl) (by simp [h'.nodeAt.color])
  refine ⟨not_or.mpr ⟨hl, hr⟩, T', b, t.toList ++ after ctx', ?_, ?_, by simpa using hn, t', ht, ?_,
    hbal'⟩
  · simp [toList_plug, hbf, toList]
  · have hsucc : Fuel.Returns (fun n => rbtreeSuccessor T n a.ptr) b.ptr :=
      hmini.congr fun n => by rw [rbtreeSuccessor, if_pos hr, hra]
    have hrest : Fuel.Returns (fun n => deleteUnlink n T a.ptr b.ptr) (T', b.ptr) := by
      refine (hret.bind (g := fun T' _ => some (T', b.ptr)) (.some _)).congr fun k => ?_
      simp [deleteUnlink, onlyChild_eq h']
    refine (hsucc.bind (g := fun y n => deleteUnlink n T a.ptr y) hrest).congr fun k => ?_
    simp [rbtreeDelete, hl, hr]
  · rw [hlist, toList_plug, before_append, after_append, hbf, deleteSplice_key,
      deleteSplice_value, h'.nodeAt.key, h'.nodeAt.value]
    simp [before, after]

/-- `rbtree_delete` takes exactly the node `z` out of the order of keys and keeps the tree
balanced. -/
theorem rbtreeDelete_returns {n : ℕ} {z : Ptr} (h : T.Repr t) (hb : t.Balanced .black n)
    (hz : z ∈ ptrs t) :
    ∃ T' y, Fuel.Returns (fun n => rbtreeDelete n T z) (T', y) ∧ T'.nil = T.nil ∧
      ∃ l a r t', t.toList = l ++ a :: r ∧ a.ptr = z ∧ T'.Repr t' ∧
        T.Unlinked z l r y t'.toList ∧ ∃ n, t'.Balanced .black n := by
  obtain ⟨a, ha, rfl⟩ := List.mem_map.mp hz
  obtain ⟨ctx, c, L, R, rfl⟩ := exists_plug_of_mem ha
  have hlist : (plug ctx (node c L a R)).toList =
      (before ctx ++ L.toList) ++ a :: (R.toList ++ after ctx) := by
    simp [toList_plug, toList]
  by_cases hR : R = .nil
  · subst hR
    obtain ⟨hone, T', hret, hn, t', ht, hl, hb'⟩ := rbtreeDelete_single (d := .left) h hb
    refine ⟨T', _, hret, hn, _, a, _, t', hlist, rfl, ht, .inl ⟨hone, rfl, ?_⟩, hb'⟩
    simp [hl, toList_plug, toList]
  by_cases hL : L = .nil
  · subst hL
    obtain ⟨hone, T', hret, hn, t', ht, hl, hb'⟩ := rbtreeDelete_single (d := .right) h hb
    refine ⟨T', _, hret, hn, _, a, _, t', hlist, rfl, ht, .inl ⟨hone, rfl, ?_⟩, hb'⟩
    simp [hl, toList_plug, toList]
  obtain ⟨hboth, T', b, r', hr, hret, hn, t', ht, hl, hb'⟩ := rbtreeDelete_double h hb hL hR
  refine ⟨T', _, hret, hn, _, a, _, t', hlist, rfl, ht,
    .inr ⟨hboth, b, r' ++ after ctx, ?_, rfl, hl⟩, hb'⟩
  simp [hr]

end Rbtree
end KvStore
