import KvStore.Rbtree.Unlink

/-! Every tree that `rbtree_insert` and `rbtree_delete` can build is a red-black search tree,
and both return on it. -/
namespace KvStore
open RedBlack RedBlack.RBTree

namespace Rbtree

variable {T T' : Rbtree} {t : RBTree Cell} {y z : Ptr}

/-- The nodes that the child pointers lead to from the root. -/
inductive InTree (T : Rbtree) : Ptr → Prop
  | root (h : T.root ≠ T.nil) : InTree T T.root
  | child {x : Ptr} (d : Side) (hx : InTree T x) (h : T.child d x ≠ T.nil) :
      InTree T (T.child d x)

/-- A block that is neither a node of the tree nor the sentinel. -/
def Free (T : Rbtree) (z : Ptr) : Prop := z ≠ null ∧ z ≠ T.nil ∧ ¬ T.InTree z

theorem Linked.inTree {p x : Ptr} (hl : T.Linked p t) (hn : T.nil ∉ ptrs t)
    (hx : ptrOf T.nil t ≠ T.nil → T.InTree (ptrOf T.nil t)) (hm : x ∈ ptrs t) : T.InTree x := by
  induction t generalizing p with
  | nil => simp at hm
  | node c l a r ihl ihr =>
    obtain ⟨ha, hl, hr⟩ := hl
    simp only [← show join .left c l a r = node c l a r from rfl, mem_ptrs_join, not_or] at hn hm
    have hI : T.InTree a.ptr := hx (Ne.symm hn.1)
    obtain rfl | hm | hm := hm
    · exact hI
    · refine ihl hl hn.2.1 (fun hne => ?_) hm
      rw [← ha.inner] at hne ⊢
      exact .child .left hI hne
    · refine ihr hr hn.2.2 (fun hne => ?_) hm
      have hro : T.child .right a.ptr = ptrOf T.nil r := ha.outer
      rw [← hro] at hne ⊢
      exact .child .right hI hne

/-- The tree that a heap holds contains exactly the nodes reached from its root. -/
theorem Repr.inTree_iff (h : T.Repr t) : T.InTree z ↔ z ∈ ptrs t := by
  constructor
  · intro hz
    induction hz with
    | root hr =>
      rw [h.root] at hr ⊢
      exact (ptrOf_mem_or T.nil t).resolve_left hr
    | child d _ hd ih =>
      obtain ⟨a, ha, rfl⟩ := List.mem_map.mp ih
      obtain ⟨ctx, c, L, R, rfl⟩ := exists_plug_of_mem ha
      have ha := Repr.nodeAt (d := .left) h
      have hm : ∀ s : RBTree Cell, ptrOf T.nil s ≠ T.nil → s = L ∨ s = R →
          ptrOf T.nil s ∈ ptrs (plug ctx (node c L a R)) := by
        intro s hs hLR
        rw [(ptrs_plug _ _).mem_iff, List.mem_append]
        refine .inr ((mem_ptrs_join .left c L R a).mpr ?_)
        have hp := (ptrOf_mem_or T.nil s).resolve_left hs
        obtain rfl | rfl := hLR
        · exact .inr (.inl hp)
        · exact .inr (.inr hp)
      cases d with
      | left =>
        rw [ha.inner] at hd ⊢
        exact hm L hd (.inl rfl)
      | right =>
        rw [show T.child .right a.ptr = _ from ha.outer] at hd ⊢
        exact hm R hd (.inr rfl)
  · intro hz
    have hn := h.nodup
    simp only [List.nodup_cons] at hn
    refine h.linked.inTree hn.2.1 (fun hne => ?_) hz
    rw [← h.root] at hne ⊢
    exact .root hne

theorem Repr.free_iff (h : T.Repr t) : T.Free z ↔ z ∉ null :: T.nil :: ptrs t := by
  simp [Free, h.inTree_iff]

/-- The representation invariant of the engine: the heap holds the tree `t` with all pointers
consistent and a sentinel that is black and was never rotated about or coloured red, and `t` is a
search tree by `strcmp` and a red-black tree. -/
structure RedBlackTree (T : Rbtree) (t : RBTree Cell) : Prop where
  repr : T.Repr t
  ordered : t.toList.Pairwise fun a b => CString.strcmp a.key b.key < 0
  rootBlack : T.color T.root = .black
  rootParent : T.root ≠ T.nil → T.parent T.root = T.nil
  noRedRed : t.NoRedRed
  sameBlacks : ∃ n, ∀ k ∈ t.blacks, k = n

/-- The invariant in the form that the operations carry along. -/
structure Holds (T : Rbtree) (t : RBTree Cell) : Prop where
  repr : T.Repr t
  sorted : Sorted t.toList
  balanced : ∃ n, t.Balanced .black n

theorem Holds.redBlackTree (h : T.Holds t) : T.RedBlackTree t := by
  obtain ⟨hr, hs, n, hb⟩ := h
  refine ⟨hr, ?_, ?_, fun hne => ?_, hb.noRedRed, n, hb.blacks_eq⟩
  · simpa [Sorted] using hs
  · rw [hr.root, color_ptrOf hr.linked hr.black, hb.color_eq]
  · rw [hr.root] at hne ⊢
    cases t with
    | nil => exact absurd rfl hne
    | node c l a r => exact hr.linked.1.parent

/-- `kvs_rbtree_create` gives the empty tree, whatever the memory held. -/
theorem Holds.create {M : Rbtree} {p : Ptr} (hp : p ≠ null) :
    (kvsRbtreeCreate M p).Holds .nil := by
  refine ⟨⟨?_, trivial, ?_, ?_, ?_⟩, .nil, _, .nil⟩
  · rfl
  · simpa [kvsRbtreeCreate] using hp.symm
  · simp [kvsRbtreeCreate]
  · simp [kvsRbtreeCreate]

/-- An insertion either meets its key and changes nothing, or adds one node. -/
theorem Holds.insert (h : T.Holds t) (hz : T.Free z) :
    ∃ T', Fuel.Returns (fun n => rbtreeInsert n T z) T' ∧
      ((∃ a ∈ t.toList, a.key = T.key z) ∧ T' = T ∨
      (∀ a ∈ t.toList, a.key ≠ T.key z) ∧
        ∃ t', T'.Holds t' ∧ t'.toList.Perm (⟨z, T.key z, T.value z⟩ :: t.toList)) := by
  obtain ⟨hr, hs, n, hb⟩ := h
  obtain ⟨T', hret, -, hT | ⟨l, r, t', hlr, hl, hgt, hr', ht', hb'⟩⟩ :=
    rbtreeInsert_returns hr hb hs (hr.free_iff.mp hz)
  · exact ⟨T', hret, .inl hT⟩
  refine ⟨T', hret, .inr ⟨fun a ha => ?_, t', ⟨hr', ?_, hb'⟩, ?_⟩⟩
  · rw [hlr, List.mem_append] at ha
    obtain ha | ha := ha
    · exact (hl a ha).ne
    · exact (hgt a ha).ne'
  · rw [hlr] at hs
    rw [ht']
    simp only [Sorted, List.pairwise_append, List.pairwise_cons, List.mem_cons] at hs ⊢
    refine ⟨hs.1, ⟨hgt, hs.2.1⟩, fun a ha b hb => ?_⟩
    obtain rfl | hb := hb
    · exact hl a ha
    · exact hs.2.2 a ha b hb
  · rw [ht', hlr]
    exact List.perm_middle

theorem Holds.insert_nil {z : Ptr} (h : T.Holds t) (hz : T.Free z)
    (hret : Fuel.Returns (fun n => rbtreeInsert n T z) T') : T'.nil = T.nil := by
  obtain ⟨hr, hs, n, hb⟩ := h
  obtain ⟨T₁, hret₁, hnil, -⟩ := rbtreeInsert_returns hr hb hs (hr.free_iff.mp hz)
  rw [hret.unique hret₁, hnil]

/-- Only the block of the new node is taken into use. -/
theorem Holds.free_insert {t : RBTree Cell} {z q : Ptr} (h : T.Holds t) (hz : T.Free z)
    (hret : Fuel.Returns (fun n => rbtreeInsert n T z) T') (hq : T.Free q) (hqz : q ≠ z) :
    T'.Free q := by
  have hnil := h.insert_nil hz hret
  obtain ⟨T₁, hret₁, hT₁⟩ := h.insert hz
  obtain rfl := hret.unique hret₁
  obtain ⟨-, rfl⟩ | ⟨-, t', hH', hperm⟩ := hT₁
  · exact hq
  · have hptrs : (ptrs t').Perm (z :: ptrs t) := hperm.map Cell.ptr
    have hold := h.repr.free_iff.mp hq
    rw [hH'.repr.free_iff, hnil]
    simp only [List.mem_cons, not_or] at hold ⊢
    refine ⟨hold.1, hold.2.1, ?_⟩
    rw [hptrs.mem_iff, List.mem_cons, not_or]
    exact ⟨hqz, hold.2.2⟩

theorem Holds.key {a : Cell} (h : T.Holds t) (ha : a ∈ t.toList) : T.key a.ptr = a.key := by
  obtain ⟨ctx, c, L, R, rfl⟩ := exists_plug_of_mem ha
  exact (Repr.nodeAt (d := .left) h.repr).key

/-- The nodes of the tree are those of the sequence. -/
theorem Holds.inTree_cell (h : T.Holds t) (hz : T.InTree z) :
    ∃ a ∈ t.toList, a.ptr = z ∧ T.key z = a.key := by
  obtain ⟨a, ha, rfl⟩ := List.mem_map.mp (h.repr.inTree_iff.mp hz)
  exact ⟨a, ha, rfl, h.key ha⟩

/-- The node that a deletion of `z` takes out of the tree: `z` itself where a child is missing, and
otherwise the node of the next key. -/
def TakesOut (T : Rbtree) (z y : Ptr) : Prop :=
  T.Single z ∧ y = z ∨
    ¬ T.Single z ∧ T.InTree y ∧ T.key z < T.key y ∧
      ∀ x, T.InTree x → T.key z < T.key x → T.key y ≤ T.key x

/-- No two nodes have the same key. -/
theorem Holds.inTree_inj (h : T.Holds t) (hy : T.InTree y) (hz : T.InTree z)
    (hk : T.key y = T.key z) : y = z := by
  obtain ⟨a, ha, rfl, hka⟩ := h.inTree_cell hy
  obtain ⟨b, hb, rfl, hkb⟩ := h.inTree_cell hz
  have hkeys : (t.toList.map Cell.key).Nodup :=
    List.pairwise_map.mpr (h.sorted.imp fun hlt => hlt.ne)
  rw [List.inj_on_of_nodup_map hkeys ha hb (hka.symm.trans (hk.trans hkb))]

theorem Holds.takesOut_unique {y' : Ptr} (h : T.Holds t) (hy : T.TakesOut z y)
    (hy' : T.TakesOut z y') : y = y' := by
  obtain ⟨hone, rfl⟩ | ⟨hboth, hin, hlt, hleast⟩ := hy
  · obtain ⟨-, rfl⟩ | ⟨hboth, -⟩ := hy'
    · rfl
    · exact absurd hone hboth
  · obtain ⟨hone, -⟩ | ⟨-, hin', hlt', hleast'⟩ := hy'
    · exact absurd hone hboth
    · exact h.inTree_inj hin hin' (le_antisymm (hleast y' hin' hlt') (hleast' y hin hlt))

/-- A deletion takes the entry of its node out of the order and keeps all others. -/
theorem Holds.delete (h : T.Holds t) (hz : T.InTree z) :
    ∃ T' y, Fuel.Returns (fun n => rbtreeDelete n T z) (T', y) ∧ T.TakesOut z y ∧
      ∃ l a r t', t.toList = l ++ a :: r ∧ a.ptr = z ∧ T'.Holds t' ∧
        t'.toList.map Cell.entry = (l ++ r).map Cell.entry := by
  obtain ⟨hr, hs, n, hb⟩ := id h
  obtain ⟨T', y, hret, -, l, a, r, t', hlr, ha, hr', hu, hb'⟩ :=
    rbtreeDelete_returns hr hb (hr.inTree_iff.mp hz)
  have hout : T.TakesOut z y := by
    obtain ⟨hone, rfl, -⟩ | ⟨hboth, b, r', rfl, rfl, -⟩ := hu
    · exact .inl ⟨hone, rfl⟩
    · have hb : b ∈ t.toList := by simp [hlr]
      have hk : T.key z = a.key := by rw [← ha, h.key (by simp [hlr])]
      have hkb := h.key hb
      have hord := hs
      simp only [hlr, Sorted, List.pairwise_append, List.pairwise_cons, List.mem_cons,
        forall_eq_or_imp] at hord
      obtain ⟨-, ⟨⟨hab, -⟩, hbr, -⟩, hl⟩ := hord
      refine .inr ⟨hboth, hr.inTree_iff.mpr (List.mem_map_of_mem hb), hk ▸ hkb ▸ hab, ?_⟩
      intro x hx hlt
      obtain ⟨c, hc, rfl, hkc⟩ := h.inTree_cell hx
      rw [hk, hkc] at hlt
      rw [hkb, hkc]
      simp only [hlr, List.mem_append, List.mem_cons] at hc
      obtain hc | rfl | rfl | hc := hc
      · exact absurd hlt (hl c hc).1.not_gt
      · exact absurd hlt (lt_irrefl _)
      · exact le_rfl
      · exact (hbr c hc).le
  refine ⟨T', y, hret, hout, l, a, r, t', hlr, ha, ?_⟩
  have he : t'.toList.map Cell.entry = (l ++ r).map Cell.entry := by
    obtain ⟨-, -, ht'⟩ | ⟨-, b, r', rfl, -, ht'⟩ := hu
    · rw [ht']
    · rw [ht']
      simp [Cell.entry]
  refine ⟨⟨hr', ?_, hb'⟩, he⟩
  have hk : ∀ s : List Cell, Sorted s ↔ (s.map Cell.entry).Pairwise fun a b => a.1 < b.1 := by
    intro s
    rw [List.pairwise_map]
    rfl
  rw [hlr] at hs
  rw [hk, he, ← hk]
  exact hs.sublist (by simp)

/-- Nothing of the tree or its sentinel has changed. -/
structure SameTree (T T' : Rbtree) : Prop where
  root : T'.root = T.root
  nil : T'.nil = T.nil
  touched : T'.touched = T.touched
  agree : ∀ q, q = T.nil ∨ T.InTree q → T.Agree T' q
  parent : ∀ q, q = T.nil ∨ T.InTree q → T'.parent q = T.parent q

theorem Holds.sameTree (h : T.Holds t) (hs : T.SameTree T') : T'.Holds t := by
  obtain ⟨hr, hso, hb⟩ := h
  refine ⟨hr.congr hs.root hs.nil ?_ ?_ (fun q hq => ?_) fun q hq => ?_, hso, hb⟩
  · rw [(hs.agree T.nil (.inl rfl)).color, hr.black]
  · rw [hs.touched]
    exact hr.untouched
  · exact hs.agree q (.inr (hr.inTree_iff.mpr hq))
  · exact hs.parent q (.inr (hr.inTree_iff.mpr hq))

/-- The trees built by insertions of any free node and deletions of any node of the tree. The
rest of the memory, which the program uses for other things, may change in between. -/
inductive Reachable : Rbtree → Prop
  | create (M : Rbtree) (p : Ptr) (hp : p ≠ null) :
      Reachable (kvsRbtreeCreate M p)
  | other {T T' : Rbtree} (h : Reachable T) (hs : T.SameTree T') : Reachable T'
  | insert {T T' : Rbtree} {z : Ptr} (h : Reachable T) (hz : T.Free z)
      (hret : Fuel.Returns (fun n => rbtreeInsert n T z) T') : Reachable T'
  | delete {T T' : Rbtree} {z y : Ptr} (h : Reachable T) (hz : T.InTree z)
      (hret : Fuel.Returns (fun n => rbtreeDelete n T z) (T', y)) : Reachable T'

theorem Reachable.holds (h : Reachable T) : ∃ t, T.Holds t := by
  induction h with
  | create M p hp => exact ⟨.nil, .create hp⟩
  | other _ hs ih =>
    obtain ⟨t, ht⟩ := ih
    exact ⟨t, ht.sameTree hs⟩
  | insert _ hz hret ih =>
    obtain ⟨t, ht⟩ := ih
    obtain ⟨T', hret', ⟨-, rfl⟩ | ⟨-, t', ht', -⟩⟩ := ht.insert hz
    · rw [hret.unique hret']
      exact ⟨t, ht⟩
    · rw [hret.unique hret']
      exact ⟨t', ht'⟩
  | delete _ hz hret ih =>
    obtain ⟨t, ht⟩ := ih
    obtain ⟨T', y, hret', -, -, -, -, t', -, -, ht', -⟩ := ht.delete hz
    cases hret.unique hret'
    exact ⟨t', ht'⟩

/-- Every reachable tree is a red-black search tree, and from it each insertion and each
deletion of one of its nodes runs to its end, again in such a tree. -/
theorem reachable_redBlackTree (h : Reachable T) :
    (∃ t, T.RedBlackTree t) ∧
    (∀ z, T.Free z → ∃ T', Fuel.Returns (fun n => rbtreeInsert n T z) T' ∧
      ∃ t', T'.RedBlackTree t') ∧
    ∀ z, T.InTree z → ∃ T' y, Fuel.Returns (fun n => rbtreeDelete n T z) (T', y) ∧
      ∃ t', T'.RedBlackTree t' := by
  obtain ⟨t, ht⟩ := h.holds
  refine ⟨⟨t, ht.redBlackTree⟩, fun z hz => ?_, fun z hz => ?_⟩
  · obtain ⟨T', hret, -⟩ := ht.insert hz
    obtain ⟨t', ht'⟩ := (h.insert hz hret).holds
    exact ⟨T', hret, t', ht'.redBlackTree⟩
  · obtain ⟨T', y, hret, -⟩ := ht.delete hz
    obtain ⟨t', ht'⟩ := (h.delete hz hret).holds
    exact ⟨T', y, hret, t', ht'.redBlackTree⟩

/-- Memory that holds nothing of interest yet. -/
def blank : Rbtree where
  color _ := .red
  child _ _ := null
  parent _ := null
  key _ := .empty
  value _ := .uninit
  root := null
  nil := null
  inPool _ := false
  touched := []

theorem blank_free : (kvsRbtreeCreate blank 1).Free 2 := by
  rw [(Holds.create (by decide)).repr.free_iff]
  simp [kvsRbtreeCreate, null]

/-- Memory in which the key of each block is one letter. -/
def lettered : Rbtree := { blank with key := fun p => .read [UInt8.ofNat p] }

/-- The third of three ascending keys turns the tree about its root, whose node is then deleted. -/
theorem reachable_redBlackTree_rotated : ∃ T T' : Rbtree, ∃ y, Reachable T ∧
    T.touched = [2, 3, 2, 4, 3, 2] ∧ T.root = 3 ∧
    Fuel.Returns (fun n => rbtreeDelete n T 3) (T', y) ∧ ∃ t', T'.RedBlackTree t' := by
  obtain ⟨T₁, T₂, T, h₁, h₂, h₃, htouched, hroot, hnil⟩ : ∃ T₁ T₂ T : Rbtree,
      Fuel.Returns (fun n => rbtreeInsert n (kvsRbtreeCreate lettered 1) 2) T₁ ∧
      Fuel.Returns (fun n => rbtreeInsert n T₁ 3) T₂ ∧
      Fuel.Returns (fun n => rbtreeInsert n T₂ 4) T ∧
      T.touched = [2, 3, 2, 4, 3, 2] ∧ T.root = 3 ∧ T.nil = 1 :=
    ⟨_, _, _, .after 3 fun n => rfl, .after 3 fun n => rfl, .after 3 fun n => rfl, rfl, rfl, rfl⟩
  have hstart : Reachable (kvsRbtreeCreate lettered 1) := .create lettered 1 (by decide)
  obtain ⟨t, ht⟩ := hstart.holds
  have hfree : ∀ q : Ptr, q ≠ 0 → q ≠ 1 → (kvsRbtreeCreate lettered 1).Free q := by
    intro q hnull hnil
    rw [(Holds.create (by decide)).repr.free_iff]
    simpa [kvsRbtreeCreate, null] using ⟨hnull, hnil⟩
  have hfree₂ := hfree 2 (by decide) (by decide)
  have hfree₃ := ht.free_insert hfree₂ h₁ (hfree 3 (by decide) (by decide)) (by decide)
  have hfree₄ := ht.free_insert hfree₂ h₁ (hfree 4 (by decide) (by decide)) (by decide)
  have hr₁ := hstart.insert hfree₂ h₁
  obtain ⟨t₁, ht₁⟩ := hr₁.holds
  have hr₂ := hr₁.insert hfree₃ h₂
  have hr := hr₂.insert (ht₁.free_insert hfree₃ h₂ hfree₄ (by decide)) h₃
  have hin : T.InTree 3 := hroot ▸ .root (by rw [hroot, hnil]; decide)
  obtain ⟨T', y, hret, hT'⟩ := (reachable_redBlackTree hr).2.2 3 hin
  exact ⟨T, T', y, hr, htouched, hroot, hret, hT'⟩

end Rbtree
end KvStore
