import KvStore.Lib.Height
import KvStore.Rbtree.Growing
import KvStore.Rbtree.Map

/-! How long the calls of the tree engine take. The searches and the rebalancing loops go along
one path, so that a call on a tree of `m` keys comes back in `2 * log (m + 1) + 1` rounds a loop. -/
namespace KvStore
open RedBlack RedBlack.RBTree Fuel KeyValue

namespace Rbtree

theorem call_growing (T : Rbtree) (node : Ptr) (c : Call CString CString) :
    Growing fun n => call n T node c := by
  have hsearch : ∀ k, Growing fun n => rbtreeSearch n T k :=
    fun k => rbtreeSearchFrom_growing T k T.root
  cases c with
  | set k v =>
    exact ((rbtreeInsert_growing _ node).bind fun _ => .const _).bind fun _ => .const _
  | get k => exact ((hsearch k).bind fun _ => .const _).bind fun _ => .const _
  | mod k v => exact ((hsearch k).bind fun _ => .const _).bind fun _ => .const _
  | exist k => exact ((hsearch k).bind fun _ => .const _).bind fun _ => .const _
  | del k =>
    have hdel : Growing fun n => kvsRbtreeDel n T (some k) := by
      apply (hsearch k).bind (k := fun node n => if node = null then some (1, T)
        else (rbtreeDelete n T node).bind fun r => if T.inPool r.2 then none else some (0, r.1))
      intro node
      by_cases hnull : node = null
      · simp only [hnull, if_true]
        exact .const _
      · simp only [hnull, if_false]
        exact (rbtreeDelete_growing T node).bind fun _ => .const _
    exact hdel.bind fun _ => .const _

section Descents

variable {T : Rbtree} {t : RBTree Cell} {ctx : Ctx Cell} {c : Color} {a : Cell} {n : ℕ}

/-- A search goes down one path. -/
theorem rbtreeSearchFrom_isSome {p : Ptr} (k : CString) (hl : T.Linked p t) (hn : t.height < n) :
    (rbtreeSearchFrom T k n (ptrOf T.nil t)).isSome := by
  induction t generalizing p n with
  | nil =>
    obtain ⟨n, rfl⟩ : ∃ j, n = j + 1 := ⟨n - 1, by omega⟩
    simp [rbtreeSearchFrom]
  | node c l a r ihl ihr =>
    obtain ⟨ha, hll, hlr⟩ := hl
    obtain ⟨n, rfl⟩ : ∃ j, n = j + 1 := ⟨n - 1, by omega⟩
    simp only [height] at hn
    have hleft := ihl hll (n := n) (by omega)
    have hright := ihr hlr (n := n) (by omega)
    have hro : T.child .right a.ptr = ptrOf T.nil r := ha.outer
    simp only [rbtreeSearchFrom, ptrOf, ha.inner, hro]
    split_ifs
    · exact hleft
    · exact hright
    · rfl
    · rfl

theorem insertDescend_isSome {p z : Ptr} (y : Ptr) (hl : T.Linked p t) (hn : t.height < n) :
    (insertDescend T z n y (ptrOf T.nil t)).isSome := by
  induction t generalizing p n y with
  | nil =>
    obtain ⟨n, rfl⟩ : ∃ j, n = j + 1 := ⟨n - 1, by omega⟩
    simp [insertDescend]
  | node c l a r ihl ihr =>
    obtain ⟨ha, hll, hlr⟩ := hl
    obtain ⟨n, rfl⟩ : ∃ j, n = j + 1 := ⟨n - 1, by omega⟩
    simp only [height] at hn
    have hleft := ihl a.ptr hll (n := n) (by omega)
    have hright := ihr a.ptr hlr (n := n) (by omega)
    have hro : T.child .right a.ptr = ptrOf T.nil r := ha.outer
    simp only [insertDescend, ptrOf, ha.inner, hro]
    split_ifs
    · exact hleft
    · exact hright
    · rfl
    · rfl

theorem rbtreeMini_isSome {l r : RBTree Cell} (h : T.Repr (plug ctx (node c l a r)))
    (hn : l.height < n) : (rbtreeMini T n a.ptr).isSome := by
  induction l generalizing c a r ctx n with
  | nil =>
    obtain ⟨n, rfl⟩ : ∃ j, n = j + 1 := ⟨n - 1, by omega⟩
    have hl : T.child .left a.ptr = T.nil := (Repr.nodeAt (d := .left) h).inner
    simp [rbtreeMini, hl]
  | node e l b s ih =>
    obtain ⟨n, rfl⟩ : ∃ j, n = j + 1 := ⟨n - 1, by omega⟩
    have hl : T.child .left a.ptr = b.ptr := (Repr.nodeAt (d := .left) h).inner
    have h' : T.Repr (plug (⟨.left, c, a, r⟩ :: ctx) (node e l b s)) := h
    simp only [height] at hn
    rw [rbtreeMini, hl]
    split_ifs
    · exact ih h' (by omega)
    · rfl

end Descents

section Insertion

variable {T : Rbtree} {ctx : Ctx Cell} {k : Side} {A B : RBTree Cell} {x : Cell}

/-- The insertion loop ends at once where the red node has no red parent. -/
theorem insertFixupLoop_stop_eq (h : T.Repr (plug ctx (join k .red A x B)))
    (hp : T.color (up T.nil ctx) = .black) (n : ℕ) :
    insertFixupLoop (n + 1) T x.ptr = some T := by
  rw [insertFixupLoop, h.nodeAt.parent, hp]
  simp

/-- The red node moves up by two frames a round. -/
theorem insertFixupLoop_isSome : ∀ (ctx : Ctx Cell) {T : Rbtree} {j : Side} {A B : RBTree Cell}
    {x : Cell} {m n : ℕ}, T.Repr (plug ctx (join j .red A x B)) →
    (join j .red A x B).Balanced .red m → Fits ctx .black m → ctx.length < n →
    (insertFixupLoop n T x.ptr).isSome
  | [], T, j, A, B, x, m, n, h, hZ, _, hn => by
    obtain ⟨n, rfl⟩ : ∃ i, n = i + 1 := ⟨n - 1, by omega⟩
    rw [insertFixupLoop_stop_eq h h.black]
    rfl
  | ⟨k, .black, f, S⟩ :: rest, T, j, A, B, x, m, n, h, hZ, hc, hn => by
    obtain ⟨n, rfl⟩ : ∃ i, n = i + 1 := ⟨n - 1, by omega⟩
    rw [insertFixupLoop_stop_eq h h.frameAt.color]
    rfl
  | [⟨k, .red, f, S⟩], T, j, A, B, x, m, n, h, hZ, hc, hn => by
    cases hc.2.2
  | ⟨k, .red, f, S⟩ :: ⟨d, .red, g, U⟩ :: rest, T, j, A, B, x, m, n, h, hZ, hc, hn => by
    cases hc.2.2.1
  | ⟨k, .red, f, S⟩ :: ⟨d, .black, g, U⟩ :: rest, T, j, A, B, x, m, n, h, hZ, hc, hn => by
    obtain ⟨-, hS, ⟨e, hU⟩, hr⟩ := hc
    simp only [List.length_cons] at hn
    obtain ⟨n, rfl⟩ : ∃ i, n = i + 2 := ⟨n - 2, by omega⟩
    rw [plug_cons, plug_cons] at h
    simp only [Frame.fill] at h
    cases e with
    | red =>
      obtain ⟨U₁, u, U₂, rfl⟩ := hU.exists_join_red .left
      obtain ⟨-, hU₁, hU₂⟩ := Balanced.of_join_red hU
      obtain ⟨T₁, h1, -, hR⟩ := insertFixupRound_uncle h
      have hb := Balanced.join_red (a := g) d (.join_black (a := f) k hZ hS)
        (Balanced.join_black (a := u) .left hU₁ hU₂)
      rw [insertFixupLoop_step h h1]
      exact insertFixupLoop_isSome rest hR hb hr (by omega)
    | black =>
      obtain rfl | rfl := Side.eq_or_eq_opp d k
      · obtain ⟨T₁, h1, -, hR⟩ := insertFixupRound_outer h hU.color_eq
        have hR' := hR
        rw [plug_inner] at hR'
        rw [insertFixupLoop_step h h1, insertFixupLoop_stop_eq hR' hR.nodeAt.color]
        rfl
      · obtain ⟨A', B', hj⟩ : ∃ A' B', join j .red A x B = join d .red A' x B' := by
          cases j
          · exact eq_join d .red A B x
          · exact eq_join d .red B A x
        rw [hj] at h
        obtain ⟨T₁, h1, -, hR⟩ := insertFixupRound_inner h hU.color_eq
        have hR' := hR
        rw [plug_inner] at hR'
        rw [insertFixupLoop_step h h1, insertFixupLoop_stop_eq hR' hR.nodeAt.color]
        rfl

/-- Both loops of an insertion stay on one path. -/
theorem Holds.insert_isSome {t : RBTree Cell} {z : Ptr} {n : ℕ} (h : T.Holds t) (hz : T.Free z)
    (hn : t.height < n) : (rbtreeInsert n T z).isSome := by
  obtain ⟨hr, hs, m, hb⟩ := h
  have h₀ : T.Repr (plug [] t) := hr
  have hroot : Around (T.key z) [] := ⟨by simp [before], by simp [after]⟩
  have hdesc := insertDescend_isSome (z := z) T.nil hr.linked hn
  obtain ⟨y, hy⟩ := Option.isSome_iff_exists.mp hdesc
  have hret := (insertDescend_growing T z T.nil (ptrOf T.nil t)).returns hy
  rw [rbtreeInsert, hr.root, hy, Option.bind_some]
  obtain ⟨a, ha, hk, hret'⟩ | ⟨ctx, hp, hc, hret'⟩ := insertDescend_returns h₀ hs hroot
  · obtain rfl := hret.unique hret'
    rfl
  · obtain rfl := hret.unique hret'
    rw [plug_nil] at hp
    subst hp
    have hz' : z ∉ null :: T.nil :: ctxPtrs ctx := by
      have hfree := hr.free_iff.mp hz
      rw [(((ptrs_plug ctx .nil).cons T.nil).cons null).mem_iff] at hfree
      simpa using hfree
    obtain ⟨c, i, hnil, hfit⟩ := Fits.of_plug hb
    cases hnil
    have hlen := length_add_height_le ctx RBTree.nil
    have hloop := insertFixupLoop_isSome ctx (insertLink_repr hr hc hz') (.red .nil .nil) hfit.black
      (lt_of_le_of_lt ((Nat.le_add_right _ _).trans hlen) hn)
    rw [insertAt, rbtreeInsertFixup, Option.isSome_bind]
    obtain ⟨T', hT'⟩ := Option.isSome_iff_exists.mp hloop
    rw [hT']
    rfl

end Insertion

section Deletion

variable {T : Rbtree} {ctx rest : Ctx Cell} {d : Side} {c e : Color} {t A B F L N R : RBTree Cell}
  {a p w x y : Cell} {z : Ptr} {m n : ℕ}

theorem deleteFixupLoop_root_isSome (T : Rbtree) (hm : 0 < m) :
    (deleteFixupLoop m T T.root).isSome := by
  obtain ⟨m, rfl⟩ : ∃ j, m = j + 1 := ⟨m - 1, by omega⟩
  simp [deleteFixupLoop]

theorem deleteFixupLoop_red_isSome (h : T.Repr (plug ctx (join d .red A x B))) (hm : 0 < m) :
    (deleteFixupLoop m T x.ptr).isSome := by
  obtain ⟨m, rfl⟩ : ∃ j, m = j + 1 := ⟨m - 1, by omega⟩
  simp [deleteFixupLoop, h.nodeAt.color]

/-- After a round with a black sibling the loop goes on one frame higher or ends. -/
theorem deleteBlackSibling_isSome
    (h : T.Focus (⟨d, c, p, join d .black N w F⟩ :: rest) t) (ht : t.Balanced .black n)
    (hfit : Fits (⟨d, c, p, join d .black N w F⟩ :: rest) .black (n + 1)) (hm : 0 < m)
    (ih : c = .black → ∀ {T : Rbtree} {t : RBTree Cell}, T.Focus rest t →
      t.Balanced .black (n + 1) → Fits rest .black (n + 2) →
      (deleteFixupLoop m T (ptrOf T.nil t)).isSome) :
    ∃ T' x', deleteBlackSibling d T (ptrOf T.nil t) w.ptr = (T', x') ∧
      (deleteFixupLoop m T' x').isSome := by
  obtain ⟨e, hw⟩ := hfit.sibling
  obtain rfl : e = .black := hw.color_eq.symm.trans (color_join d _ _ _ _)
  obtain ⟨T', y, h1, -, ⟨rfl, u, hu, hR, -⟩ | ⟨rfl, -⟩⟩ := deleteBlackSibling_cases h ht hw
  · refine ⟨T', _, h1, ?_⟩
    cases c with
    | red => exact deleteFixupLoop_red_isSome hR hm
    | black =>
      have hup := ih rfl hR.focus (.join_black d ht hu) hfit.2
      rwa [ptrOf_join] at hup
  · exact ⟨T', _, h1, deleteFixupLoop_root_isSome T' hm⟩

/-- The missing black moves up by one frame a round. -/
theorem deleteFixupLoop_isSome : ∀ (ctx : Ctx Cell) {T : Rbtree} {t : RBTree Cell} {m n : ℕ},
    T.Focus ctx t → t.Balanced .black n → Fits ctx .black (n + 1) → ctx.length < m →
    (deleteFixupLoop m T (ptrOf T.nil t)).isSome
  | [], T, t, m, n, h, ht, _, hm => by
    have hr : T.root = ptrOf T.nil t := h.repr.root
    rw [← hr]
    exact deleteFixupLoop_root_isSome T hm
  | ⟨d, c, p, W⟩ :: rest, T, t, m, n, h, ht, hc, hm => by
    obtain ⟨m, rfl⟩ : ∃ j, m = j + 1 := ⟨m - 1, by omega⟩
    simp only [List.length_cons] at hm
    obtain ⟨e, hW⟩ := hc.sibling
    obtain ⟨N, w, F, rfl⟩ := hW.exists_join d
    have hp : T.parent (ptrOf T.nil t) = p.ptr := h.parent
    have hw : T.child d.opp p.ptr = w.ptr := by simpa using h.repr.frameAt.outer
    cases e with
    | black =>
      obtain ⟨T', x', hb, hsome⟩ := deleteBlackSibling_isSome (m := m) h ht hc (by omega)
        (fun _ {T} {t} hf hb hr => deleteFixupLoop_isSome rest hf hb hr (by omega))
      have hround : deleteFixupRound d T (ptrOf T.nil t) = (T', x') := by
        rw [deleteFixupRound, hp, hw, deleteRedSibling_black h]
        exact hb
      rwa [deleteFixupLoop_step h ht.color_eq hround]
    | red =>
      cases c with
      | red => cases hc.2.1.color_eq.symm.trans (color_join d _ _ _ _)
      | black =>
        -- the rotation about a red sibling adds a red frame, where the loop then ends
        obtain ⟨-, hN, hF⟩ := Balanced.of_join_red hW
        obtain ⟨T₁, h1, hn, hf⟩ := deleteRedSibling_red h
        obtain ⟨N₁, q, N₂, rfl⟩ := hN.exists_join d
        have hfit : Fits (⟨d, .red, p, join d .black N₁ q N₂⟩ :: ⟨d, .black, w, F⟩ :: rest)
            .black (n + 1) := ⟨rfl, hN, ⟨_, hF⟩, hc.2⟩
        obtain ⟨T', x', hb, hsome⟩ := deleteBlackSibling_isSome (m := m) hf ht hfit (by omega)
          (fun hh => by cases hh)
        have hround : deleteFixupRound d T (ptrOf T.nil t) = (T', x') := by
          rw [deleteFixupRound, hp, hw, h1]
          rw [hn] at hb
          simpa using hb
        rwa [deleteFixupLoop_step h ht.color_eq hround]

/-- The last part of a deletion stays on the path above the unlinked node. -/
theorem deleteFinish_isSome (h : T.Focus ctx t) (hb : (join d c t y .nil).Balanced e n)
    (hf : Fits ctx e n) (hy : T.color y.ptr = c) (hm : ctx.length < m) :
    (if T.color y.ptr = .black then rbtreeDeleteFixup m T (ptrOf T.nil t)
      else some T).isSome := by
  cases c with
  | red => simp [hy]
  | black =>
    obtain ⟨rfl, i, rfl, ⟨e, ht⟩, -⟩ := Balanced.of_join_black hb
    have hloop : (deleteFixupLoop m T (ptrOf T.nil t)).isSome := by
      cases e with
      | black => exact deleteFixupLoop_isSome ctx h ht hf hm
      | red =>
        obtain ⟨A, x, B, rfl⟩ := ht.exists_join_red .left
        rw [ptrOf_join]
        exact deleteFixupLoop_red_isSome h.repr (by omega)
    obtain ⟨r, hr⟩ := Option.isSome_iff_exists.mp hloop
    rw [if_pos hy, rbtreeDeleteFixup, hr]
    rfl

/-- A node is not among the others when its only subtree takes its place. -/
theorem Repr.notMem_lift (h : T.Repr (plug ctx (join d c t y .nil))) :
    y.ptr ∉ ptrs (plug ctx t) := by
  have hn := h.split.2.2
  have hp := (ptrs_join d c t .nil y).append_left (ctxPtrs ctx)
  rw [((hp.cons T.nil).cons null).nodup_iff] at hn
  rw [(ptrs_plug _ _).mem_iff]
  simp only [List.nodup_cons, List.nodup_append, List.mem_cons, List.mem_append] at hn ⊢
  grind

theorem rbtreeDelete_single_isSome (h : T.Repr (plug ctx (join d c t a .nil)))
    (hb : (plug ctx (join d c t a .nil)).Balanced .black n) (hm : ctx.length < m) :
    (rbtreeDelete m T a.ptr).isSome := by
  obtain ⟨e, i, hb', hf⟩ := Fits.of_plug hb
  have hy := h.nodeAt
  have hg : T.child .left a.ptr = T.nil ∨ T.child .right a.ptr = T.nil := by
    have ho : T.child d.opp a.ptr = T.nil := hy.outer
    cases d with
    | left => exact .inr ho
    | right => exact .inl ho
  have hfin := deleteFinish_isSome (deleteSplice_focus h) hb' hf (by simp [hy.color]) hm
  obtain ⟨T', hT'⟩ := Option.isSome_iff_exists.mp hfin
  have heq : rbtreeDelete m T a.ptr = some (T', a.ptr) := by
    simp only [deleteSplice_nil, deleteSplice_color] at hT'
    simp [rbtreeDelete, deleteUnlink, hg, onlyChild_eq h, deleteSwap, hT']
  rw [heq]
  rfl

theorem rbtreeDelete_double_isSome (h : T.Repr (plug ctx (node c L a R)))
    (hb : (plug ctx (node c L a R)).Balanced .black n) (hL : L ≠ .nil) (hR : R ≠ .nil)
    (hm : (plug ctx (node c L a R)).height < m) : (rbtreeDelete m T a.ptr).isSome := by
  have ha := Repr.nodeAt (d := .left) h
  have hL' : T.Repr (plug (⟨.left, c, a, R⟩ :: ctx) L) := h
  have hR' : T.Repr (plug (⟨.right, c, a, L⟩ :: ctx) R) := h
  have hl : T.child .left a.ptr ≠ T.nil := by
    rw [ha.inner]
    exact mt hL'.ptrOf_eq_nil.mp hL
  have hr : T.child .right a.ptr ≠ T.nil := by
    rw [show T.child .right a.ptr = _ from ha.outer]
    exact mt hR'.ptrOf_eq_nil.mp hR
  obtain ⟨cr, rl, ra, rr, rfl⟩ : ∃ cr rl ra rr, R = node cr rl ra rr := by
    cases R with
    | nil => exact absurd rfl hR
    | node cr rl ra rr => exact ⟨_, _, _, _, rfl⟩
  obtain ⟨ctx', cy, b, t, hp, -, hmini⟩ := rbtreeMini_returns hR'
  have hra : T.child .right a.ptr = ra.ptr := ha.outer
  -- the search for the successor and the loop above it stay within the height of the tree
  have hdepth : ctx.length + (node c L a (node cr rl ra rr)).height < m :=
    (length_add_height_le ctx _).trans_lt hm
  have hhole : ctx'.length ≤ (node cr rl ra rr).height := by
    rw [hp]
    exact (Nat.le_add_right _ _).trans (length_add_height_le ctx' _)
  simp only [height] at hdepth hhole
  have hsome := rbtreeMini_isSome hR' (n := m) (by omega)
  obtain ⟨y, hy⟩ := Option.isSome_iff_exists.mp hsome
  obtain rfl := hmini.unique ((rbtreeMini_growing T ra.ptr).returns hy)
  have hlen : (ctx' ++ ⟨.right, c, a, L⟩ :: ctx).length < m := by
    rw [List.length_append, List.length_cons]
    omega
  rw [hp] at h hb
  have h' : T.Repr (plug (ctx' ++ ⟨.right, c, a, L⟩ :: ctx) (join .right cy t b .nil)) := by
    rw [plug_append]
    exact h
  have hb' : (plug (ctx' ++ ⟨.right, c, a, L⟩ :: ctx) (join .right cy t b .nil)).Balanced
      .black n := by
    rw [plug_append]
    exact hb
  obtain ⟨e, i, hbal, hf⟩ := Fits.of_plug hb'
  have hS := deleteSwap_focus (deleteSplice_focus h') h'.notMem_lift
  have hfin := deleteFinish_isSome hS hbal (hf.setElem rfl rfl) (by simp [h'.nodeAt.color])
    (m := m) (by simpa using hlen)
  obtain ⟨T', hT'⟩ := Option.isSome_iff_exists.mp hfin
  have heq : rbtreeDelete m T a.ptr = some (T', b.ptr) := by
    simp only [deleteSwap_nil, deleteSwap_color, deleteSplice_nil, deleteSplice_color] at hT'
    simp [rbtreeDelete, rbtreeSuccessor, deleteUnlink, hl, hra ▸ hr, hra, hy, onlyChild_eq h', hT']
  rw [heq]
  rfl

/-- The search for the successor and the loop of a deletion go down and up one path. -/
theorem Holds.delete_isSome (h : T.Holds t) (hz : T.InTree z) (hm : t.height < m) :
    (rbtreeDelete m T z).isSome := by
  obtain ⟨hr, -, n, hb⟩ := h
  obtain ⟨a, ha, rfl⟩ := List.mem_map.mp (hr.inTree_iff.mp hz)
  obtain ⟨ctx, c, L, R, rfl⟩ := exists_plug_of_mem ha
  have hlen : ctx.length < m :=
    ((Nat.le_add_right _ _).trans (length_add_height_le ctx (node c L a R))).trans_lt hm
  by_cases hR : R = .nil
  · subst hR
    exact rbtreeDelete_single_isSome (d := .left) hr hb hlen
  by_cases hL : L = .nil
  · subst hL
    exact rbtreeDelete_single_isSome (d := .right) hr hb hlen
  exact rbtreeDelete_double_isSome hr hb hL hR hm

end Deletion

section Calls

open KeyValue

variable {T : Rbtree} {t : RBTree Cell} {m : CString → Option CString} {n : ℕ}

theorem Holds.search_isSome (h : T.Holds t) (k : CString) (hn : t.height < n) :
    (rbtreeSearch n T k).isSome := by
  rw [rbtreeSearch, h.repr.root]
  exact rbtreeSearchFrom_isSome k h.repr.linked hn

theorem Holds.call_isSome {node : Ptr} {c : Call CString CString} (h : T.Holds t)
    (hp : T.Permits node c) (hc : T.Spared c) (hn : t.height < n) : (call n T node c).isSome := by
  have hsearch : ∀ k, ∃ p, rbtreeSearch n T k = some p :=
    fun k => Option.isSome_iff_exists.mp (h.search_isSome k hn)
  cases c with
  | set k v =>
    have hH := h.setEntry hp k (.str v)
    have hins := hH.insert_isSome ((h.free_congr hH rfl).mpr hp) hn
    obtain ⟨T', hT'⟩ := Option.isSome_iff_exists.mp hins
    simp [call, kvsRbtreeSet, hT']
  | get k =>
    obtain ⟨p, hp⟩ := hsearch k
    simp only [call, kvsRbtreeGet, hp, Option.bind_some]
    split_ifs <;> rfl
  | mod k v =>
    obtain ⟨p, hp⟩ := hsearch k
    simp only [call, kvsRbtreeMod, hp, Option.bind_some]
    split_ifs <;> rfl
  | exist k =>
    obtain ⟨p, hp⟩ := hsearch k
    simp only [call, kvsRbtreeExist, hp, Option.bind_some]
    split_ifs <;> rfl
  | del k =>
    obtain ⟨p, hs⟩ := hsearch k
    obtain ⟨a, ha, hak, hnull, -, hret⟩ | ⟨hne, -, -⟩ := h.search k
    · obtain rfl := hret.unique ((rbtreeSearchFrom_growing T k T.root).returns hs)
      have hin := h.repr.inTree_iff.mpr (List.mem_map_of_mem ha)
      obtain ⟨r, hr⟩ := Option.isSome_iff_exists.mp (h.delete_isSome hin hn)
      obtain ⟨T', y, hdel, hout, -⟩ := h.delete hin
      obtain rfl := hdel.unique ((rbtreeDelete_growing T a.ptr).returns hr)
      have hpool : T.inPool y = false := hc _ _ hin ((h.key ha).trans hak) hout
      simp [call, kvsRbtreeDel, hs, hnull, hr, hpool]
    · obtain ⟨q, hq, rfl⟩ := hp
      obtain ⟨b, hb, rfl⟩ := List.mem_map.mp (h.repr.inTree_iff.mp hq)
      obtain ⟨ctx, e, L, R, rfl⟩ := exists_plug_of_mem hb
      exact absurd (Repr.nodeAt (d := .left) h.repr).key.symm (hne b hb)

/-- The entries of the map are as many as the nodes of the tree. -/
theorem Maps.keys (h : T.Maps m) : ∃ t, T.Holds t ∧ ∃ K : Finset CString,
    (∀ k, (m k).isSome ↔ k ∈ K) ∧ K.card = t.toList.length := by
  obtain ⟨t, hT, hm⟩ := h
  refine ⟨t, hT, ((t.toList.map Cell.entry).map Prod.fst).toFinset, fun k => ?_, ?_⟩
  · rw [List.mem_toFinset, ← hm.isSome_iff, strings, Option.isSome_map]
  · rw [List.toFinset_card_of_nodup hm.nodup, List.length_map, List.length_map]

/-- Along every run a permitted call on `m` keys that takes no chunk of the pool out of the tree
gives the reply of the map within `2 * log (m + 1) + 1` rounds of each of its loops. -/
theorem kvsRbtree_call_cost {M : Rbtree} {p : Ptr} (hp : p ≠ null)
    {log : List (Call CString CString × Reply CharPtr)}
    (hrun : Runs Step (kvsRbtreeCreate M p) log T) :
    ∃ K : Finset CString,
      (∀ k, (((log.map Prod.fst).foldl next fun _ => none) k).isSome ↔ k ∈ K) ∧
      ∀ c node, T.Permits node c → T.Spared c → ∃ T', ∀ n, 2 * Nat.log 2 (K.card + 1) < n →
        call n T node c = some (reply ((log.map Prod.fst).foldl next fun _ => none) c, T') := by
  obtain ⟨-, hm⟩ := hrun.simulates (R := Maps) (.create hp) fun h hs => h.step hs
  obtain ⟨t, hT, K, hK, hcard⟩ := hm.keys
  refine ⟨K, hK, fun c node hc hspared => ?_⟩
  obtain ⟨T', hret, -⟩ := hm.call hc hspared
  refine ⟨T', fun n hn => ?_⟩
  obtain ⟨i, hb⟩ := hT.balanced
  have hheight := hb.height_le_log
  rw [← hcard] at hheight
  obtain ⟨r, hr⟩ := Option.isSome_iff_exists.mp (hT.call_isSome hc hspared (hheight.trans_lt hn))
  obtain rfl := hret.unique ((call_growing T node c).returns hr)
  exact hr

/-- On three keys five rounds are enough for a deletion. -/
theorem kvsRbtree_call_cost_three : ∃ T,
    Runs Step (kvsRbtreeCreate blank 1) (threeKeys.map fun kv => (.set kv.1 kv.2, .status 0)) T ∧
      ∃ T', ∀ n, 4 < n → call n T null (.del letterB) = some (.status 0, T') := by
  obtain ⟨T, hrun, hm, hpool⟩ := exists_threeKeys blank
  obtain ⟨K, hK, hcalls⟩ := kvsRbtree_call_cost (by decide) hrun
  have hkey : T.Permits null (.del letterB) := hm.exists_inTree (by decide)
  have hspared : T.Spared (.del letterB) := by
    intro z y _ _ _
    rw [hpool]
    rfl
  obtain ⟨T', hT'⟩ := hcalls (.del letterB) null hkey hspared
  have hset : K = [letterA, letterB, letterC].toFinset := by
    ext k
    rw [← hK, List.map_map, List.mem_toFinset]
    exact threeKeys_isSome k
  have hcard : K.card = 3 := by rw [hset]; decide
  rw [hcard] at hT'
  exact ⟨T, hrun, T', fun n hn => hT' n hn⟩

end Calls

end Rbtree
end KvStore
