import KvStore.Rbtree.Map

/-! Going through a tree in the order of its keys: step by step with `rbtree_successor`, and with
`rbtree_traversal` at once. -/
namespace KvStore
open RedBlack RedBlack.RBTree Fuel

def rbtreeMaxi (T : Rbtree) : ℕ → Ptr → Option Ptr
  | 0, _ => none
  | n + 1, x => if T.child .right x ≠ T.nil then rbtreeMaxi T n (T.child .right x) else some x

/-- The key and the value of each line that is printed. -/
def rbtreeTraversal (T : Rbtree) : ℕ → Ptr → Option (List (CString × CharPtr))
  | 0, _ => none
  | n + 1, x =>
    if x ≠ T.nil then
      (rbtreeTraversal T n (T.child .left x)).bind fun before =>
      (rbtreeTraversal T n (T.child .right x)).bind fun after =>
      some (before ++ (T.key x, T.value x) :: after)
    else some []

namespace Rbtree

variable {T : Rbtree} {t : RBTree Cell} {ctx : Ctx Cell} {c : Color} {a : Cell} {l r : RBTree Cell}

/-- The first of some nodes, or the sentinel. -/
def firstPtr (nil : Ptr) (nodes : List Cell) : Ptr := (nodes.head?.map Cell.ptr).getD nil

theorem rbtreeMini_first (h : T.Repr (plug ctx (node c l a r))) :
    Returns (fun n => rbtreeMini T n a.ptr) (firstPtr T.nil (node c l a r).toList) := by
  obtain ⟨ctx', e, b, s, hp, hbefore, hret⟩ := rbtreeMini_returns h
  rw [hp, toList_plug, hbefore]
  exact hret

theorem rbtreeMaxi_last (h : T.Repr (plug ctx (node c l a r))) :
    ∃ b, (node c l a r).toList.getLast? = some b ∧ Returns (fun n => rbtreeMaxi T n a.ptr) b.ptr := by
  induction r generalizing c a l ctx with
  | nil =>
    have hr : T.child .right a.ptr = T.nil := (Repr.nodeAt (d := .left) h).outer
    exact ⟨a, by simp [toList], .last fun n => by simp [rbtreeMaxi, hr]⟩
  | node e s b r _ ih =>
    have hr : T.child .right a.ptr = b.ptr := (Repr.nodeAt (d := .left) h).outer
    have h' : T.Repr (plug (⟨.right, c, a, l⟩ :: ctx) (node e s b r)) := h
    have hb : b.ptr ≠ T.nil := fun he => by simpa using h'.ptrOf_eq_nil.mp he
    obtain ⟨d, hlast, hret⟩ := ih h'
    refine ⟨d, ?_, .succ (fun n => ?_) hret⟩
    · rw [toList, List.getLast?_append_of_ne_nil _ (List.cons_ne_nil _ _), List.getLast?_cons,
        hlast]
      rfl
    · simp [rbtreeMaxi, hr, hb]

theorem ptrOf_mem (p : Ptr) (ht : t ≠ .nil) : ptrOf p t ∈ ptrs t := by
  cases t with
  | nil => exact absurd rfl ht
  | node c l a r => simp [ptrOf, ptrs, toList]

/-- The climb ends at the first node behind the subtree that it comes from. -/
theorem rbtreeClimb_returns (h : T.Repr (plug ctx t)) (ht : t ≠ .nil) :
    Returns (fun n => rbtreeClimb T n (ptrOf T.nil t) (up T.nil ctx)) (firstPtr T.nil (after ctx)) := by
  induction ctx generalizing t with
  | nil => exact .last fun n => by simp [rbtreeClimb, firstPtr, after]
  | cons f ctx ih =>
    obtain ⟨hctx, -, hnodup⟩ := h.split
    have hmem := ptrOf_mem T.nil ht
    simp only [List.nodup_cons, List.nodup_append, List.mem_cons, List.mem_append, not_or] at hnodup
    obtain ⟨-, ⟨hnil, hnot⟩, -, -, hapart⟩ := hnodup
    have hx : ptrOf T.nil t ∉ ctxPtrs (f :: ctx) := fun hin => hapart _ hin _ hmem rfl
    have hf : f.elem.ptr ≠ T.nil := fun he => hnil (he ▸ List.mem_cons_self)
    obtain ⟨k, hk, hside⟩ := hctx.exists_side hx fun he => hnot (he ▸ hmem)
    obtain rfl := hside f ctx rfl
    obtain ⟨hchild, hother⟩ := hk hf
    obtain ⟨d, e, b, sib⟩ := f
    cases d with
    | left =>
      -- the node above stands behind the subtree
      refine .last fun n => ?_
      rw [rbtreeClimb, if_neg fun hr => hother hr.2.symm]
      rfl
    | right =>
      have hparent : T.parent b.ptr = up T.nil ctx := h.frameAt.parent
      have hup : T.Repr (plug ctx (Frame.fill ⟨.right, e, b, sib⟩ t)) := h
      have hrest := ih hup (by simp [Frame.fill, join])
      rw [ptrOf_fill] at hrest
      refine .succ (fun n => ?_) hrest
      rw [rbtreeClimb, if_pos ⟨hf, hchild.symm⟩, up_cons, hparent]

theorem rbtreeSuccessor_first (h : T.Repr (plug ctx (node c l a r))) :
    Returns (fun n => rbtreeSuccessor T n a.ptr) (firstPtr T.nil (r.toList ++ after ctx)) := by
  have ha : T.NodeAt c a (up T.nil ctx) .left (ptrOf T.nil l) (ptrOf T.nil r) := Repr.nodeAt h
  have hr : T.child .right a.ptr = ptrOf T.nil r := ha.outer
  cases r with
  | nil =>
    refine Returns.congr (rbtreeClimb_returns h (by simp)) fun n => ?_
    rw [rbtreeSuccessor, if_neg (by simp [hr]), ha.parent]
    rfl
  | node e s b u =>
    have h' : T.Repr (plug (⟨.right, c, a, l⟩ :: ctx) (node e s b u)) := h
    have hb : ptrOf T.nil (node e s b u) ≠ T.nil := fun he => by simpa using h'.ptrOf_eq_nil.mp he
    have hfirst : firstPtr T.nil ((node e s b u).toList ++ after ctx) =
        firstPtr T.nil (node e s b u).toList := by
      rw [firstPtr, List.head?_append_of_ne_nil _ (by simp [toList])]
      rfl
    rw [hfirst]
    refine (rbtreeMini_first h').congr fun n => ?_
    rw [rbtreeSuccessor, hr, if_pos hb]
    rfl

/-- The nodes that `rbtree_successor` leads through, from a node up to the sentinel. -/
inductive Walk (T : Rbtree) : Ptr → List Ptr → Prop
  | done : Walk T T.nil []
  | next {x y : Ptr} {ps : List Ptr} (hx : x ≠ T.nil)
    (hy : Returns (fun n => rbtreeSuccessor T n x) y) (hps : Walk T y ps) : Walk T x (x :: ps)

theorem Holds.walk (h : T.Holds t) {pre post : List Cell} (ht : t.toList = pre ++ post) :
    T.Walk (firstPtr T.nil post) (post.map Cell.ptr) := by
  induction post generalizing pre with
  | nil => exact .done
  | cons a post ih =>
    have hmem : a ∈ t.toList := by simp [ht]
    have hsplit : t.toList = (pre ++ [a]) ++ post := by simp [ht]
    have hrest := ih hsplit
    have hnil : a.ptr ≠ T.nil := by
      have hn := h.repr.nodup
      simp only [List.nodup_cons, List.mem_cons, not_or] at hn
      exact fun he => hn.2.1 (he ▸ List.mem_map_of_mem hmem)
    refine .next hnil ?_ hrest
    obtain ⟨ctx, c, l, r, rfl⟩ := exists_plug_of_mem hmem
    have hpost : r.toList ++ after ctx = post := by
      have hfocus : (plug ctx (node c l a r)).toList =
          (before ctx ++ l.toList) ++ a :: (r.toList ++ after ctx) := by
        simp [toList_plug, toList]
      have hsorted := h.sorted
      rw [Sorted, hfocus, List.pairwise_append, List.pairwise_cons] at hsorted
      obtain ⟨-, ⟨hbehind, -⟩, hbefore⟩ := hsorted
      rw [hfocus] at ht
      refine ((List.append_cons_inj_of_notMem ?_ ?_).mp ht).2.2
      · exact fun hin => lt_irrefl _ (hbefore a hin a List.mem_cons_self)
      · exact fun hin => lt_irrefl _ (hbehind a hin)
    rw [← hpost]
    exact rbtreeSuccessor_first h.repr

theorem rbtreeTraversal_returns {p : Ptr} (h : T.Linked p t) (hn : T.nil ∉ ptrs t) :
    Returns (fun n => rbtreeTraversal T n (ptrOf T.nil t)) (t.toList.map Cell.entry) := by
  induction t generalizing p with
  | nil => exact .last fun n => by simp [rbtreeTraversal, toList]
  | node c l a r ihl ihr =>
    obtain ⟨ha, hl, hr⟩ := h
    have hright : T.child .right a.ptr = ptrOf T.nil r := ha.outer
    simp only [← show join .left c l a r = node c l a r from rfl, mem_ptrs_join, not_or] at hn
    obtain ⟨hne, hnl, hnr⟩ := hn
    have hlines := (ihl hl hnl).bind (g := fun before n =>
      (rbtreeTraversal T n (ptrOf T.nil r)).bind fun after => some (before ++ a.entry :: after))
      ((ihr hr hnr).bind (.some _))
    have hentries : (node c l a r).toList.map Cell.entry =
        l.toList.map Cell.entry ++ a.entry :: r.toList.map Cell.entry := by
      simp [toList]
    rw [hentries]
    refine .succ (fun n => ?_) hlines
    have hptr : ptrOf T.nil (node c l a r) = a.ptr := rfl
    rw [hptr, rbtreeTraversal, if_pos (Ne.symm hne), ha.inner, hright, ha.key, ha.value]
    rfl

theorem Holds.cell (h : T.Holds t) (ha : a ∈ t.toList) : T.key a.ptr = a.key ∧
    T.value a.ptr = a.value := by
  obtain ⟨ctx, c, l, r, rfl⟩ := exists_plug_of_mem ha
  have hn : T.NodeAt c a (up T.nil ctx) .left (ptrOf T.nil l) (ptrOf T.nil r) := Repr.nodeAt h.repr
  exact ⟨hn.key, hn.value⟩

/-- The map behind a run, gone through in order. From the minimum, `rbtree_successor` leads once
through every key that is there, in ascending order up to the maximum, and then to the sentinel;
`rbtree_traversal` prints their entries in the same order. -/
theorem kvsRbtree_in_order {M : Rbtree} {p : Ptr} (hp : p ≠ null)
    {log : List (KeyValue.Call CString CString × KeyValue.Reply CharPtr)}
    (hrun : Runs Step (kvsRbtreeCreate M p) log T) : ∃ ps : List Ptr,
      (ps.map T.key).Pairwise (· < ·) ∧
      (∀ k, k ∈ ps.map T.key ↔ (((log.map Prod.fst).foldl KeyValue.next fun _ => none) k).isSome) ∧
      (T.root ≠ T.nil → ∃ first last, ps.head? = some first ∧ ps.getLast? = some last ∧
        Returns (fun n => rbtreeMini T n T.root) first ∧
        Returns (fun n => rbtreeMaxi T n T.root) last ∧ T.Walk first ps) ∧
      Returns (fun n => rbtreeTraversal T n T.root) (ps.map fun q => (T.key q, T.value q)) := by
  obtain ⟨-, t, hT, hm⟩ := hrun.simulates (R := Maps) (.create hp) fun h hs => h.step hs
  have hkeys : (t.toList.map Cell.ptr).map T.key = t.toList.map Cell.key := by
    rw [List.map_map]
    exact List.map_congr_left fun a ha => (hT.cell ha).1
  have hlines : (t.toList.map Cell.ptr).map (fun q => (T.key q, T.value q)) =
      t.toList.map Cell.entry := by
    rw [List.map_map]
    refine List.map_congr_left fun a ha => ?_
    obtain ⟨hkey, hvalue⟩ := hT.cell ha
    exact Prod.ext hkey hvalue
  have hnil : T.nil ∉ ptrs t := (List.nodup_cons.mp (List.nodup_cons.mp hT.repr.nodup).2).1
  refine ⟨t.toList.map Cell.ptr, ?_, fun k => ?_, fun hroot => ?_, ?_⟩
  · rw [hkeys]
    exact List.pairwise_map.mpr hT.sorted
  · rw [hkeys, ← Option.isSome_map, ← strings, hm.isSome_iff, mem_keys, List.mem_map]
  · cases t with
    | nil => exact absurd hT.repr.root hroot
    | node c l a r =>
      have hrepr : T.Repr (plug [] (node c l a r)) := hT.repr
      have hwalk := hT.walk (List.nil_append _).symm
      obtain ⟨b, hb, hlast⟩ := rbtreeMaxi_last hrepr
      obtain ⟨d, rest, hd⟩ := List.exists_cons_of_ne_nil
        (show (node c l a r).toList ≠ [] by simp [toList])
      have hmini := rbtreeMini_first hrepr
      rw [hd] at hwalk hmini hb ⊢
      have hrootPtr : T.root = a.ptr := hT.repr.root
      rw [hrootPtr]
      exact ⟨d.ptr, b.ptr, rfl, by rw [List.getLast?_map, hb]; rfl, hmini, hlast, hwalk⟩
  · rw [hlines, hT.repr.root]
    exact rbtreeTraversal_returns hT.repr.linked hnil

/-- Three keys that were not set in order. -/
theorem kvsRbtree_in_order_three : ∃ (T : Rbtree) (ps : List Ptr),
    Runs Step (kvsRbtreeCreate blank 1) (threeKeys.map fun kv => (.set kv.1 kv.2, .status 0)) T ∧
      ps.map T.key = [letterA, letterB, letterC] ∧
      Returns (fun n => rbtreeTraversal T n T.root) (ps.map fun q => (T.key q, T.value q)) := by
  obtain ⟨T, hrun, -, -⟩ := exists_threeKeys blank
  obtain ⟨ps, hsorted, hkeys, -, hlines⟩ := kvsRbtree_in_order (by decide) hrun
  refine ⟨T, ps, hrun, ?_, hlines⟩
  have hmem : ∀ k, k ∈ ps.map T.key ↔ k ∈ [letterA, letterB, letterC] := by
    intro k
    rw [hkeys, List.map_map]
    exact threeKeys_isSome k
  have hperm : (ps.map T.key).Perm [letterA, letterB, letterC] :=
    (List.perm_ext_iff_of_nodup (hsorted.imp fun hlt => hlt.ne) (by decide)).mpr hmem
  exact hperm.eq_of_pairwise (fun a b _ _ hab hba => absurd hba hab.not_gt) hsorted (by decide)

end Rbtree
end KvStore
