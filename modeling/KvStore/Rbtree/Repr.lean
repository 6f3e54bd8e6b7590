import KvStore.Rbtree.Model
import KvStore.Lib.Fuel
import Mathlib.Tactic

/-! Which tree a heap holds. `Repr T t` says that following the pointers of `T` from its root
unfolds exactly to `t`, with every parent pointer right; the pointer surgery of the source is
then a step from one tree to another. -/
namespace KvStore
open RedBlack RedBlack.RBTree

/-- A node: its address and the key and value stored in it. -/
structure Cell where
  ptr : Ptr
  key : CString
  value : CharPtr

/-- The key and the value that a node stores. -/
def Cell.entry (a : Cell) : CString × CharPtr := (a.key, a.value)

def ptrs (t : RBTree Cell) : List Ptr := t.toList.map Cell.ptr

def ctxPtrs : Ctx Cell → List Ptr
  | [] => []
  | f :: ctx => f.elem.ptr :: ptrs f.sib ++ ctxPtrs ctx

@[simp] theorem ptrs_nil : ptrs RBTree.nil = [] := rfl

theorem ptrs_join (d : Side) (c : Color) (t s : RBTree Cell) (a : Cell) :
    (ptrs (join d c t a s)).Perm (a.ptr :: (ptrs t ++ ptrs s)) := by
  cases d with
  | left => simp [join, ptrs, toList]
  | right =>
    simp only [join, ptrs, toList, List.map_append, List.map_cons]
    exact List.perm_middle.trans (List.Perm.cons _ List.perm_append_comm)

theorem mem_ptrs_join {q : Ptr} (d : Side) (c : Color) (t s : RBTree Cell) (a : Cell) :
    q ∈ ptrs (join d c t a s) ↔ q = a.ptr ∨ q ∈ ptrs t ∨ q ∈ ptrs s := by
  simp [(ptrs_join d c t s a).mem_iff]

theorem ptrs_plug (ctx : Ctx Cell) (t : RBTree Cell) :
    (ptrs (plug ctx t)).Perm (ctxPtrs ctx ++ ptrs t) := by
  induction ctx generalizing t with
  | nil => exact List.Perm.refl _
  | cons f ctx ih =>
    refine (ih (f.fill t)).trans ?_
    have hj := (ptrs_join f.side f.color t f.sib f.elem).append_left (ctxPtrs ctx)
    refine hj.trans ?_
    simp only [ctxPtrs, List.cons_append]
    refine List.perm_middle.trans (List.Perm.cons _ ?_)
    calc ctxPtrs ctx ++ (ptrs t ++ ptrs f.sib)
        |>.Perm ((ptrs t ++ ptrs f.sib) ++ ctxPtrs ctx) := List.perm_append_comm
      _ = ptrs t ++ (ptrs f.sib ++ ctxPtrs ctx) := List.append_assoc _ _ _
      _ |>.Perm (ptrs f.sib ++ ctxPtrs ctx ++ ptrs t) := List.perm_append_comm

/-- The address of a subtree, with `nil` for the sentinel. -/
def ptrOf (nil : Ptr) : RBTree Cell → Ptr
  | .nil => nil
  | .node _ _ a _ => a.ptr

/-- The parent of a hole; above the root it is the sentinel. -/
def up (nil : Ptr) : Ctx Cell → Ptr
  | [] => nil
  | f :: _ => f.elem.ptr

@[simp] theorem ptrOf_nil (p : Ptr) : ptrOf p .nil = p := rfl
@[simp] theorem ptrOf_join (p : Ptr) (d : Side) (c : Color) (t s : RBTree Cell) (a : Cell) :
    ptrOf p (join d c t a s) = a.ptr := by cases d <;> rfl
@[simp] theorem ptrOf_fill (p : Ptr) (f : Frame Cell) (t : RBTree Cell) :
    ptrOf p (f.fill t) = f.elem.ptr := ptrOf_join p _ _ _ _ _
@[simp] theorem up_nil (p : Ptr) : up p [] = p := rfl
@[simp] theorem up_cons (p : Ptr) (f : Frame Cell) (ctx : Ctx Cell) :
    up p (f :: ctx) = f.elem.ptr := rfl

theorem ptrOf_mem_or (p : Ptr) (t : RBTree Cell) : ptrOf p t = p ∨ ptrOf p t ∈ ptrs t := by
  cases t with
  | nil => exact .inl rfl
  | node c l a r => exact .inr (by simp [ptrOf, ptrs, toList])

theorem up_mem_or (p : Ptr) (ctx : Ctx Cell) : up p ctx = p ∨ up p ctx ∈ ctxPtrs ctx := by
  cases ctx with
  | nil => exact .inl rfl
  | cons f ctx => exact .inr (by simp [ctxPtrs])

theorem ptrOf_plug (p : Ptr) (f : Frame Cell) (ctx : Ctx Cell) (t s : RBTree Cell) :
    ptrOf p (plug (f :: ctx) t) = ptrOf p (plug (f :: ctx) s) := by
  induction ctx generalizing f t s with
  | nil => simp
  | cons g ctx ih => exact ih g _ _

theorem ptrOf_plug_of_eq (p : Ptr) (ctx : Ctx Cell) {t s : RBTree Cell}
    (h : ptrOf p t = ptrOf p s) : ptrOf p (plug ctx t) = ptrOf p (plug ctx s) := by
  cases ctx with
  | nil => exact h
  | cons f ctx => exact ptrOf_plug p f ctx t s

namespace Rbtree

/-- The fields of the node `a`, with its child `x` on side `d` and `y` on the other. -/
structure NodeAt (T : Rbtree) (c : Color) (a : Cell) (p : Ptr) (d : Side) (x y : Ptr) : Prop where
  color : T.color a.ptr = c
  key : T.key a.ptr = a.key
  value : T.value a.ptr = a.value
  parent : T.parent a.ptr = p
  inner : T.child d a.ptr = x
  outer : T.child d.opp a.ptr = y

theorem NodeAt.opp {T : Rbtree} {c : Color} {a : Cell} {p : Ptr} {d : Side} {x y : Ptr}
    (h : T.NodeAt c a p d x y) : T.NodeAt c a p d.opp y x :=
  ⟨h.color, h.key, h.value, h.parent, h.outer, by simpa using h.inner⟩

theorem nodeAt_opp {T : Rbtree} {c : Color} {a : Cell} {p : Ptr} {d : Side} {x y : Ptr} :
    T.NodeAt c a p d.opp y x ↔ T.NodeAt c a p d x y :=
  ⟨fun h => by simpa using h.opp, NodeAt.opp⟩

/-- The subtree `t` hangs below the address `p`. -/
def Linked (T : Rbtree) : Ptr → RBTree Cell → Prop
  | _, .nil => True
  | p, .node c l a r =>
    T.NodeAt c a p .left (ptrOf T.nil l) (ptrOf T.nil r) ∧ Linked T a.ptr l ∧ Linked T a.ptr r

theorem linked_join {T : Rbtree} {p : Ptr} {d : Side} {c : Color} {t s : RBTree Cell} {a : Cell} :
    T.Linked p (join d c t a s) ↔
      T.NodeAt c a p d (ptrOf T.nil t) (ptrOf T.nil s) ∧ T.Linked a.ptr t ∧ T.Linked a.ptr s := by
  cases d with
  | left => exact Iff.rfl
  | right =>
    change T.NodeAt c a p Side.right.opp _ _ ∧ _ ∧ _ ↔ _
    rw [nodeAt_opp, and_comm (a := T.Linked a.ptr s)]

/-- The path `ctx` leads to a hole filled by the address `x`. -/
def LinkedCtx (T : Rbtree) : Ctx Cell → Ptr → Prop
  | [], _ => True
  | f :: ctx, x => T.NodeAt f.color f.elem (up T.nil ctx) f.side x (ptrOf T.nil f.sib) ∧
      T.Linked f.elem.ptr f.sib ∧ LinkedCtx T ctx f.elem.ptr

theorem linked_plug {T : Rbtree} {ctx : Ctx Cell} {t : RBTree Cell} :
    T.Linked T.nil (plug ctx t) ↔ T.LinkedCtx ctx (ptrOf T.nil t) ∧ T.Linked (up T.nil ctx) t := by
  induction ctx generalizing t with
  | nil => simp [LinkedCtx]
  | cons f ctx ih =>
    rw [plug_cons, ih, ptrOf_fill, Frame.fill, linked_join]
    simp only [LinkedCtx, up_cons]
    tauto

/-- `T` and `T'` agree on the node at `q`, its parent pointer left aside. -/
structure Agree (T T' : Rbtree) (q : Ptr) : Prop where
  color : T'.color q = T.color q
  key : T'.key q = T.key q
  value : T'.value q = T.value q
  child : ∀ d, T'.child d q = T.child d q

theorem NodeAt.congr {T T' : Rbtree} {c : Color} {a : Cell} {p p' : Ptr} {d : Side} {x y : Ptr}
    (h : T.NodeAt c a p d x y) (ha : T.Agree T' a.ptr) (hp : T'.parent a.ptr = p') :
    T'.NodeAt c a p' d x y :=
  ⟨ha.color.trans h.color, ha.key.trans h.key, ha.value.trans h.value, hp,
    (ha.child d).trans h.inner, (ha.child d.opp).trans h.outer⟩

/-- A subtree is unaffected by changes elsewhere in the heap. -/
theorem Linked.congr {T T' : Rbtree} {p : Ptr} {t : RBTree Cell} (h : T.Linked p t)
    (hn : T'.nil = T.nil) (ha : ∀ q ∈ ptrs t, T.Agree T' q)
    (hp : ∀ q ∈ ptrs t, T'.parent q = T.parent q) : T'.Linked p t := by
  induction t generalizing p with
  | nil => trivial
  | node c l a r ihl ihr =>
    obtain ⟨hx, hl, hr⟩ := h
    have hm : ∀ q, q ∈ ptrs (node c l a r) ↔ q = a.ptr ∨ q ∈ ptrs l ∨ q ∈ ptrs r :=
      fun q => mem_ptrs_join .left c l r a
    refine ⟨?_, ihl hl (fun q hq => ha q ?_) (fun q hq => hp q ?_),
      ihr hr (fun q hq => ha q ?_) (fun q hq => hp q ?_)⟩
    · rw [hn]
      exact hx.congr (ha _ ((hm _).mpr (.inl rfl)))
        ((hp _ ((hm _).mpr (.inl rfl))).trans hx.parent)
    all_goals exact (hm q).mpr (by tauto)

/-- A subtree is carried over to a changed heap that hangs it below `p'`. -/
theorem Linked.move {T T' : Rbtree} {p p' : Ptr} {t : RBTree Cell} (h : T.Linked p t)
    (hn : T'.nil = T.nil) (hd : (ptrs t).Nodup) (ha : ∀ q ∈ ptrs t, T.Agree T' q)
    (hp : ∀ q ∈ ptrs t, q ≠ ptrOf T.nil t → T'.parent q = T.parent q)
    (hr : t ≠ .nil → T'.parent (ptrOf T.nil t) = p') : T'.Linked p' t := by
  cases t with
  | nil => trivial
  | node c l a r =>
    obtain ⟨hx, hl, hr'⟩ := h
    have hm : ∀ q, q ∈ ptrs (node c l a r) ↔ q = a.ptr ∨ q ∈ ptrs l ∨ q ∈ ptrs r :=
      fun q => mem_ptrs_join .left c l r a
    have hj := (ptrs_join .left c l r a).nodup_iff.mp hd
    simp only [List.nodup_cons, List.mem_append, not_or] at hj
    obtain ⟨⟨hal, har⟩, -⟩ := hj
    refine ⟨?_, hl.congr hn (fun q hq => ha q ?_) (fun q hq => hp q ?_ ?_),
      hr'.congr hn (fun q hq => ha q ?_) (fun q hq => hp q ?_ ?_)⟩
    · rw [hn]
      exact hx.congr (ha _ ((hm _).mpr (.inl rfl))) (hr (by simp))
    · exact (hm q).mpr (by tauto)
    · exact (hm q).mpr (by tauto)
    · exact fun (he : q = a.ptr) => hal (he ▸ hq)
    · exact (hm q).mpr (by tauto)
    · exact (hm q).mpr (by tauto)
    · exact fun (he : q = a.ptr) => har (he ▸ hq)

/-- The node above a hole holds the hole's address on one side only. -/
theorem LinkedCtx.exists_side {T : Rbtree} {ctx : Ctx Cell} {x : Ptr} (h : T.LinkedCtx ctx x)
    (hx : x ∉ ctxPtrs ctx) (hnil : x ≠ T.nil) :
    ∃ k : Side, (up T.nil ctx ≠ T.nil → T.child k (up T.nil ctx) = x ∧
      T.child k.opp (up T.nil ctx) ≠ x) ∧ ∀ f rest, ctx = f :: rest → k = f.side := by
  cases ctx with
  | nil => exact ⟨.left, fun hh => absurd rfl hh, fun f rest hf => by cases hf⟩
  | cons f ctx =>
    refine ⟨f.side, fun _ => ⟨h.1.inner, ?_⟩, fun g rest hg => by rw [(List.cons.inj hg).1]⟩
    rw [up_cons, h.1.outer]
    obtain hs | hs := ptrOf_mem_or T.nil f.sib
    · exact fun he => hnil (he.symm.trans hs)
    · exact fun he => hx (he ▸ by simp [ctxPtrs, hs])

/-- A path is carried over to a changed heap whose hole holds `y` instead of `x`. -/
theorem LinkedCtx.move {T T' : Rbtree} {ctx : Ctx Cell} {x y : Ptr} (h : T.LinkedCtx ctx x)
    (hn : T'.nil = T.nil) (hd : (ctxPtrs ctx).Nodup)
    (hc : ∀ q ∈ ctxPtrs ctx, T'.color q = T.color q ∧ T'.key q = T.key q ∧
      T'.value q = T.value q ∧ T'.parent q = T.parent q)
    (hk : ∀ q ∈ ctxPtrs ctx, q ≠ up T.nil ctx → ∀ d, T'.child d q = T.child d q)
    (hu : ∀ f rest, ctx = f :: rest → T'.child f.side f.elem.ptr = y ∧
      T'.child f.side.opp f.elem.ptr = T.child f.side.opp f.elem.ptr) :
    T'.LinkedCtx ctx y := by
  induction ctx generalizing x y with
  | nil => trivial
  | cons f ctx ih =>
    obtain ⟨hx, hs, hr⟩ := h
    simp only [ctxPtrs, List.cons_append, List.nodup_cons, List.mem_append, not_or,
      List.nodup_append] at hd
    obtain ⟨⟨hfs, hfc⟩, hds, hdc, hdis⟩ := hd
    obtain ⟨h1, h2⟩ := hu f ctx rfl
    obtain ⟨k1, k2, k3, k4⟩ := hc f.elem.ptr (by simp [ctxPtrs])
    refine ⟨⟨k1.trans hx.color, k2.trans hx.key, k3.trans hx.value, ?_, h1, ?_⟩, ?_, ?_⟩
    · rw [k4, hn, hx.parent]
    · rw [h2, hn, hx.outer]
    · refine hs.congr hn (fun q hq => ?_) (fun q hq => ?_)
      · obtain ⟨k1, k2, k3, -⟩ := hc q (by simp [ctxPtrs, hq])
        exact ⟨k1, k2, k3, hk q (by simp [ctxPtrs, hq])
          fun (he : q = f.elem.ptr) => hfs (he ▸ hq)⟩
      · exact (hc q (by simp [ctxPtrs, hq])).2.2.2
    · refine ih hr hdc (fun q hq => hc q (by simp [ctxPtrs, hq])) (fun q hq _ => ?_) ?_
      · exact hk q (by simp [ctxPtrs, hq]) fun (he : q = f.elem.ptr) => hfc (he ▸ hq)
      · rintro g rest rfl
        have hg : g.elem.ptr ≠ f.elem.ptr := fun he => hfc (by simp [ctxPtrs, he])
        have hk' := hk g.elem.ptr (by simp [ctxPtrs]) hg
        exact ⟨(hk' _).trans hr.1.inner, hk' _⟩

/-- The heap of `T` holds the tree `t`, the sentinel is black and was never rotated about or
coloured red. -/
structure Repr (T : Rbtree) (t : RBTree Cell) : Prop where
  root : T.root = ptrOf T.nil t
  linked : T.Linked T.nil t
  nodup : (null :: T.nil :: ptrs t).Nodup
  black : T.color T.nil = .black
  untouched : T.nil ∉ T.touched

/-- The parts of `Repr` around a hole. -/
theorem Repr.split {T : Rbtree} {ctx : Ctx Cell} {t : RBTree Cell} (h : T.Repr (plug ctx t)) :
    T.LinkedCtx ctx (ptrOf T.nil t) ∧ T.Linked (up T.nil ctx) t ∧
      (null :: T.nil :: (ctxPtrs ctx ++ ptrs t)).Nodup :=
  ⟨(linked_plug.mp h.linked).1, (linked_plug.mp h.linked).2,
    (((ptrs_plug ctx t).cons T.nil).cons null).nodup_iff.mp h.nodup⟩

theorem color_ptrOf {T : Rbtree} {p : Ptr} {t : RBTree Cell} (h : T.Linked p t)
    (hb : T.color T.nil = .black) : T.color (ptrOf T.nil t) = t.color := by
  cases t with
  | nil => exact hb
  | node c l a r => exact h.1.color

/-- The fields of the node in focus. -/
theorem Repr.nodeAt {T : Rbtree} {ctx : Ctx Cell} {d : Side} {c : Color} {t s : RBTree Cell}
    {a : Cell} (h : T.Repr (plug ctx (join d c t a s))) :
    T.NodeAt c a (up T.nil ctx) d (ptrOf T.nil t) (ptrOf T.nil s) :=
  (linked_join.mp h.split.2.1).1

/-- The fields of the node above the focus. -/
theorem Repr.frameAt {T : Rbtree} {f : Frame Cell} {ctx : Ctx Cell} {t : RBTree Cell}
    (h : T.Repr (plug (f :: ctx) t)) :
    T.NodeAt f.color f.elem (up T.nil ctx) f.side (ptrOf T.nil t) (ptrOf T.nil f.sib) :=
  h.split.1.1

theorem Repr.color_focus {T : Rbtree} {ctx : Ctx Cell} {t : RBTree Cell}
    (h : T.Repr (plug ctx t)) : T.color (ptrOf T.nil t) = t.color :=
  color_ptrOf h.split.2.1 h.black

/-- A heap that differs only in what is stored at the node `a` holds the same tree with that
node relabelled. -/
theorem Repr.relabel {T S : Rbtree} {ctx : Ctx Cell} {d : Side} {c : Color} {t s : RBTree Cell}
    {a b : Cell} (h : T.Repr (plug ctx (join d c t a s))) (hroot : S.root = T.root)
    (hnil : S.nil = T.nil) (hchild : S.child = T.child) (hparent : S.parent = T.parent)
    (hne : ∀ q, q ≠ a.ptr →
      S.color q = T.color q ∧ S.key q = T.key q ∧ S.value q = T.value q)
    (htouch : S.nil ∉ S.touched) (hb : b.ptr = a.ptr) (hkey : S.key a.ptr = b.key)
    (hvalue : S.value a.ptr = b.value) :
    S.Repr (plug ctx (join d (S.color a.ptr) t b s)) := by
  obtain ⟨hc, hl, hn⟩ := h.split
  have hp := (((ptrs_join d c t s a).append_left (ctxPtrs ctx)).cons T.nil).cons null
  have hp' := (((ptrs_join d (S.color a.ptr) t s b).append_left (ctxPtrs ctx)).cons
    T.nil).cons null
  have hnd := hp.nodup_iff.mp hn
  simp only [List.nodup_cons, List.nodup_append, List.mem_cons, List.mem_append, not_or] at hnd
  obtain ⟨-, ⟨-, hna, -⟩, hdc, ⟨⟨hat, has⟩, -⟩, hdis⟩ := hnd
  obtain ⟨hx, ht, hs⟩ := linked_join.mp hl
  have hsub : ∀ {p : Ptr} {u : RBTree Cell}, a.ptr ∉ ptrs u → T.Linked p u → S.Linked p u := by
    intro p u hu hlu
    refine hlu.congr hnil (fun q hq => ?_) (fun q _ => by rw [hparent])
    obtain ⟨k1, k2, k3⟩ := hne q fun he => hu (he ▸ hq)
    exact ⟨k1, k2, k3, fun _ => by rw [hchild]⟩
  refine ⟨?_, linked_plug.mpr ⟨?_, linked_join.mpr ⟨?_, ?_, ?_⟩⟩, ?_, ?_, htouch⟩
  · rw [hroot, hnil, h.root]
    exact ptrOf_plug_of_eq T.nil ctx (by simp [hb])
  · rw [ptrOf_join] at hc ⊢
    refine hc.move hnil hdc (fun q hq => ?_) (fun q hq _ d => by rw [hchild]) ?_
    · obtain ⟨k1, k2, k3⟩ := hne q (hdis q hq a.ptr (by simp))
      exact ⟨k1, k2, k3, by rw [hparent]⟩
    · rintro f rest rfl
      rw [hchild, hb]
      exact ⟨hc.1.inner, rfl⟩
  · rw [hnil]
    exact ⟨by rw [hb], by rw [hb, hkey], by rw [hb, hvalue], by rw [hb, hparent, hx.parent],
      by rw [hb, hchild, hx.inner], by rw [hb, hchild, hx.outer]⟩
  · rw [hb]
    exact hsub hat ht
  · rw [hb]
    exact hsub has hs
  · rw [hnil]
    rw [hb] at hp'
    exact (((ptrs_plug ctx _).cons T.nil).cons null).nodup_iff.mpr
      (hp'.nodup_iff.mpr (hp.nodup_iff.mp hn))
  · rw [hnil, (hne T.nil fun he => hna he).1, h.black]

theorem Repr.setColor {T : Rbtree} {ctx : Ctx Cell} {d : Side} {c : Color} {t s : RBTree Cell}
    {a : Cell} (h : T.Repr (plug ctx (join d c t a s))) (e : Color) :
    (T.setColor a.ptr e).Repr (plug ctx (join d e t a s)) := by
  have ha : a.ptr ≠ T.nil := by
    have hn := (((ptrs_join d c t s a).append_left (ctxPtrs ctx)).cons T.nil).nodup_iff.mp
      (List.nodup_cons.mp h.split.2.2).2
    intro he
    simp [he] at hn
  have hu : (T.setColor a.ptr e).nil ∉ (T.setColor a.ptr e).touched := by
    simp only [setColor_nil, setColor_touched]
    split_ifs <;> simp [h.untouched, ha.symm]
  have hr := h.relabel (S := T.setColor a.ptr e) (b := a) rfl rfl rfl rfl
    (fun q hq => by simp [hq]) hu rfl h.nodeAt.key h.nodeAt.value
  simpa using hr

theorem Repr.setKey {T : Rbtree} {ctx : Ctx Cell} {d : Side} {c : Color} {t s : RBTree Cell}
    {a : Cell} (h : T.Repr (plug ctx (join d c t a s))) (k : CString) :
    (T.setKey a.ptr k).Repr (plug ctx (join d c t ⟨a.ptr, k, a.value⟩ s)) := by
  have hr := h.relabel (S := T.setKey a.ptr k) (b := ⟨a.ptr, k, a.value⟩) rfl rfl rfl rfl
    (fun q hq => by simp [hq]) h.untouched rfl (by simp) h.nodeAt.value
  rwa [setKey_color, h.nodeAt.color] at hr

theorem Repr.setValue {T : Rbtree} {ctx : Ctx Cell} {d : Side} {c : Color} {t s : RBTree Cell}
    {a : Cell} (h : T.Repr (plug ctx (join d c t a s))) (v : CharPtr) :
    (T.setValue a.ptr v).Repr (plug ctx (join d c t ⟨a.ptr, a.key, v⟩ s)) := by
  have hr := h.relabel (S := T.setValue a.ptr v) (b := ⟨a.ptr, a.key, v⟩) rfl rfl rfl rfl
    (fun q hq => by simp [hq]) h.untouched rfl h.nodeAt.key (by simp)
  rwa [setValue_color, h.nodeAt.color] at hr

/-- Memory outside the tree may change. -/
theorem Repr.congr {T T' : Rbtree} {t : RBTree Cell} (h : T.Repr t) (hroot : T'.root = T.root)
    (hnil : T'.nil = T.nil) (hblack : T'.color T.nil = .black) (htouch : T.nil ∉ T'.touched)
    (ha : ∀ q ∈ ptrs t, T.Agree T' q) (hp : ∀ q ∈ ptrs t, T'.parent q = T.parent q) :
    T'.Repr t := by
  refine ⟨by rw [hroot, hnil, h.root], ?_, by rw [hnil]; exact h.nodup, by rw [hnil, hblack],
    by rw [hnil]; exact htouch⟩
  rw [hnil]
  exact h.linked.congr hnil ha hp

theorem Repr.root_ne_null {T : Rbtree} {t : RBTree Cell} (h : T.Repr t) : T.root ≠ null := by
  have hnodup := h.nodup
  simp only [List.nodup_cons, List.mem_cons, not_or] at hnodup
  rw [h.root]
  intro he
  obtain hnil | hmem := ptrOf_mem_or T.nil t
  · exact hnodup.1.1 (he.symm.trans hnil)
  · exact hnodup.1.2 (he ▸ hmem)

theorem Repr.setKey_of_notMem {T : Rbtree} {t : RBTree Cell} {y : Ptr} (h : T.Repr t)
    (hy : y ∉ ptrs t) (k : CString) : (T.setKey y k).Repr t := by
  refine h.congr rfl rfl h.black h.untouched (fun q hq => ⟨rfl, ?_, rfl, fun _ => rfl⟩)
    fun _ _ => rfl
  exact Function.update_of_ne (fun (he : q = y) => hy (he ▸ hq)) _ _

theorem Repr.setValue_of_notMem {T : Rbtree} {t : RBTree Cell} {y : Ptr} (h : T.Repr t)
    (hy : y ∉ ptrs t) (v : CharPtr) : (T.setValue y v).Repr t := by
  refine h.congr rfl rfl h.black h.untouched (fun q hq => ⟨rfl, rfl, ?_, fun _ => rfl⟩)
    fun _ _ => rfl
  exact Function.update_of_ne (fun (he : q = y) => hy (he ▸ hq)) _ _

end Rbtree
end KvStore
