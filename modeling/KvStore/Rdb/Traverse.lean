import KvStore.Rbtree.Map
import KvStore.Rdb.Model

/-! The traversal of the tree that a save makes. It stops at the root, so that it covers the trees
whose root has no children. -/
namespace KvStore
open RedBlack RedBlack.RBTree KeyValue

/-- The nodes that `kvs_rbtree_traverse` calls its callback on, in order. -/
def kvsRbtreeTraverse (T : Rbtree) : List Ptr :=
  if T.root ≠ null ∧ T.root ≠ T.nil then [T.root] else []

/-- The record that `rbtree_save_callback` writes for a node. -/
def rbtreeSaveCallback (T : Rbtree) (node : Ptr) : Option RdbRecord :=
  match T.value node with
  | .str value => some ⟨1, T.key node, value⟩
  | _ => none

theorem rbtreeRecords_eq (T : Rbtree) :
    rbtreeRecords T = (kvsRbtreeTraverse T).mapM (rbtreeSaveCallback T) := by
  rw [rbtreeRecords, kvsRbtreeTraverse]
  split_ifs
  · rw [List.mapM_cons, List.mapM_nil, rbtreeSaveCallback]
    cases T.value T.root <;> rfl
  · rfl

namespace Rbtree

variable {T : Rbtree} {t : RBTree Cell} {m : CString → Option CString} {p : Ptr}

/-- The callback is called exactly once on each node of the tree, and on nothing else. -/
structure VisitsAll (T : Rbtree) : Prop where
  once : ∀ p, T.InTree p → (kvsRbtreeTraverse T).count p = 1
  only : ∀ p ∈ kvsRbtreeTraverse T, T.InTree p

/-- A save writes one record for each key, whatever the tree stores. -/
def WritesAll (T : Rbtree) : Prop :=
  ∀ m, T.Maps m → ∃ rs, rbtreeRecords T = some rs ∧ rs.Nodup ∧
    ∀ r, r ∈ rs ↔ r.type = 1 ∧ m r.key = some r.value

/-- No node hangs below the root. -/
def AtMostRoot (T : Rbtree) : Prop := T.root ≠ T.nil → ∀ d, T.child d T.root = T.nil

theorem Repr.child_ne_root (h : T.Repr t) (hr : T.root ≠ T.nil) (d : Side) :
    T.child d T.root ≠ T.root := by
  have hnodup := h.nodup
  have hlinked := h.linked
  rw [h.root] at hr ⊢
  cases t with
  | nil => exact absurd rfl hr
  | node c l a r =>
    have hj := (ptrs_join .left c l r a).nodup_iff.mp (List.nodup_cons.mp
      (List.nodup_cons.mp hnodup).2).2
    simp only [List.nodup_cons, List.mem_append, not_or] at hj
    have hne : ∀ s : RBTree Cell, a.ptr ∉ ptrs s → ptrOf T.nil s ≠ a.ptr := by
      intro s hs he
      obtain hnil | hmem := ptrOf_mem_or T.nil s
      · exact hr (he.symm.trans hnil)
      · exact hs (he ▸ hmem)
    cases d with
    | left =>
      change T.child .left a.ptr ≠ a.ptr
      rw [hlinked.1.inner]
      exact hne l hj.1.1
    | right =>
      change T.child Side.left.opp a.ptr ≠ a.ptr
      rw [hlinked.1.outer]
      exact hne r hj.1.2

/-- A child of the root would have to be the root itself. -/
theorem VisitsAll.atMostRoot (h : T.VisitsAll) (hT : T.Repr t) : T.AtMostRoot := by
  intro hr d
  by_contra hchild
  have hone := h.once _ (.child d (.root hr) hchild)
  rw [kvsRbtreeTraverse, if_pos ⟨hT.root_ne_null, hr⟩,
    List.count_singleton, if_neg (by simpa using (hT.child_ne_root hr d).symm)] at hone
  exact absurd hone zero_ne_one

theorem AtMostRoot.eq_root (h : T.AtMostRoot) (hp : T.InTree p) : T.root ≠ T.nil ∧ p = T.root := by
  induction hp with
  | root hr => exact ⟨hr, rfl⟩
  | child d _ hchild ih =>
    obtain ⟨hr, rfl⟩ := ih
    exact absurd (h hr d) hchild

theorem AtMostRoot.visitsAll (h : T.AtMostRoot) (hT : T.Repr t) : T.VisitsAll := by
  constructor
  · intro p hp
    obtain ⟨hr, rfl⟩ := h.eq_root hp
    rw [kvsRbtreeTraverse, if_pos ⟨hT.root_ne_null, hr⟩, List.count_singleton_self]
  · intro p hp
    rw [kvsRbtreeTraverse] at hp
    split_ifs at hp with hr
    · obtain rfl := List.mem_singleton.mp hp
      exact .root hr.2
    · exact absurd hp List.not_mem_nil

theorem eq_nil_of_ptrOf {q : Ptr} (hn : q ∉ ptrs t) (h : ptrOf q t = q) : t = .nil := by
  cases t with
  | nil => rfl
  | node c l a r =>
    refine absurd ?_ hn
    rw [← h]
    exact (mem_ptrs_join .left c l r a).mpr (.inl rfl)

/-- The tree that such a heap holds. -/
theorem AtMostRoot.tree (h : T.AtMostRoot) (hT : T.Repr t) :
    t = .nil ∨ ∃ c a, t = .node c .nil a .nil := by
  cases t with
  | nil => exact .inl rfl
  | node c l a r =>
    have hn := (List.nodup_cons.mp (List.nodup_cons.mp hT.nodup).2).1
    have hroot : T.root = a.ptr := hT.root
    simp only [← show join .left c l a r = node c l a r from rfl, mem_ptrs_join, not_or] at hn
    have hchild := h (hroot ▸ Ne.symm hn.1)
    have hl : ptrOf T.nil l = T.nil := by
      rw [← hT.linked.1.inner, ← hroot]
      exact hchild .left
    have hr : ptrOf T.nil r = T.nil := by
      rw [← hT.linked.1.outer, ← hroot]
      exact hchild .right
    exact .inr ⟨c, a, by rw [eq_nil_of_ptrOf hn.2.1 hl, eq_nil_of_ptrOf hn.2.2 hr]⟩

/-- The record of the root is that of the only key. -/
theorem AtMostRoot.writesAll (h : T.AtMostRoot) : T.WritesAll := by
  rintro m ⟨t, hT, hm⟩
  have hroot := hT.repr.root
  obtain rfl | ⟨c, a, rfl⟩ := h.tree hT.repr
  · refine ⟨[], ?_, List.nodup_nil, fun r => ?_⟩
    · rw [rbtreeRecords, if_neg (fun hr => hr.2 hroot)]
    · have hnone : strings m r.key = none := hm.eq_none List.not_mem_nil
      simp [Option.map_eq_none_iff.mp hnone]
  · have hplug : T.Repr (plug [] (join .left c .nil a .nil)) := hT.repr
    have hnode := hplug.nodeAt
    have hne : T.root ≠ T.nil := by
      rw [hroot]
      exact mt hplug.ptrOf_eq_nil.mp fun he => by cases he
    have hmem : ∀ k v, strings m k = some v ↔ (k, v) = a.entry := by
      intro k v
      rw [hm.mem_iff]
      simp [toList]
    obtain ⟨v, hv, hval⟩ := Option.map_eq_some_iff.mp ((hmem a.key a.value).mpr rfl)
    have hrec : rbtreeRecords T = some [⟨1, a.key, v⟩] := by
      rw [rbtreeRecords, if_pos ⟨hT.repr.root_ne_null, hne⟩, hroot]
      change (match T.value a.ptr with
        | .str value => some [(⟨1, T.key a.ptr, value⟩ : RdbRecord)]
        | _ => none) = _
      rw [hnode.value, hnode.key, ← hval]
    refine ⟨_, hrec, List.nodup_singleton _, fun r => ?_⟩
    rw [List.mem_singleton]
    constructor
    · rintro rfl
      exact ⟨rfl, hv⟩
    · rintro ⟨htype, hr⟩
      have he := (hmem r.key (.str r.value)).mp (by rw [strings, hr]; rfl)
      obtain ⟨hk, hs⟩ := Prod.mk.inj he
      rw [← hval, CharPtr.str.injEq] at hs
      cases r with
      | mk type key value =>
        cases htype
        cases hk
        cases hs
        rfl

/-- A save writes one record of the tree at most. -/
theorem length_rbtreeRecords {rs : List RdbRecord} (h : rbtreeRecords T = some rs) :
    rs.length ≤ 1 := by
  rw [rbtreeRecords] at h
  split_ifs at h
  · split at h
    · cases h
      exact le_rfl
    · cases h
  · cases h
    exact Nat.zero_le 1

theorem atMostRoot_of_length (hT : T.Repr t) (hlen : t.toList.length ≤ 1) : T.AtMostRoot := by
  intro hr d
  have hroot := hT.root
  cases t with
  | nil => exact absurd hroot hr
  | node c l a r =>
    rw [toList, List.length_append, List.length_cons] at hlen
    have hnil : ∀ s : RBTree Cell, s.toList.length = 0 → ptrOf T.nil s = T.nil := by
      intro s hs
      cases s with
      | nil => rfl
      | node c l a r => simp [toList] at hs
    rw [hroot]
    cases d with
    | left => exact hT.linked.1.inner.trans (hnil l (by omega))
    | right => exact hT.linked.1.outer.trans (hnil r (by omega))

/-- The traversal covers a red-black tree, and the save writes a record for each of its keys, exactly
when nothing hangs below the root. -/
theorem kvsRbtreeTraverse_complete_iff (h : T.RedBlackTree t) :
    (T.VisitsAll ∧ T.WritesAll) ↔ T.AtMostRoot :=
  ⟨fun hall => hall.1.atMostRoot h.repr, fun hone => ⟨hone.visitsAll h.repr, hone.writesAll⟩⟩

/-- The tree with one node. -/
theorem kvsRbtreeTraverse_complete_iff_first_insert : ∃ T,
    Fuel.Returns (fun n => rbtreeInsert n (kvsRbtreeCreate blank 1) 2) T ∧
      (T.VisitsAll ∧ T.WritesAll) := by
  obtain ⟨T, hret, ⟨⟨a, ha, -⟩, -⟩ | ⟨-, t, hT, hperm⟩⟩ :=
    (Holds.create (M := blank) (by decide)).insert blank_free
  · exact absurd ha List.not_mem_nil
  · exact ⟨T, hret, (kvsRbtreeTraverse_complete_iff hT.redBlackTree).mpr
      (atMostRoot_of_length hT.repr hperm.length_eq.le)⟩

/-- The second key of a tree is not reached. -/
theorem kvsRbtreeTraverse_misses_leaf : ∃ T T' t,
    Fuel.Returns (fun n => kvsRbtreeSet n (kvsRbtreeCreate blank 1) ⟨some 2, true, true⟩
      (some (.read [97])) (some (.read [98]))) (0, T) ∧
    Fuel.Returns (fun n => kvsRbtreeSet n T ⟨some 3, true, true⟩
      (some (.read [99])) (some (.read [100]))) (0, T') ∧
    T'.RedBlackTree t ∧ ¬ T'.VisitsAll ∧ ¬ T'.WritesAll := by
  have hfree : (kvsRbtreeCreate blank 1).Free 3 := by
    rw [(Holds.create (by decide)).repr.free_iff]
    simp [kvsRbtreeCreate, null]
  obtain ⟨T, hset, hmaps, hkeep⟩ :=
    (Maps.create (M := blank) (p := 1) (by decide)).set_block blank_free true true
      (.read [97]) (.read [98])
  obtain ⟨T', hset', hmaps', -⟩ :=
    hmaps.set_block (hkeep 3 (by decide) hfree) true true (.read [99]) (.read [100])
  have hwrites : ¬ T'.WritesAll := by
    intro hwrites
    obtain ⟨rs, hrs, -, hmem⟩ := hwrites _ hmaps'
    have hfirst : (⟨1, .read [97], .read [98]⟩ : RdbRecord) ∈ rs := (hmem _).mpr ⟨rfl, rfl⟩
    have hsecond : (⟨1, .read [99], .read [100]⟩ : RdbRecord) ∈ rs := (hmem _).mpr ⟨rfl, rfl⟩
    have hlen := length_rbtreeRecords hrs
    obtain ⟨r, rfl⟩ := List.length_eq_one_iff.mp
      (le_antisymm hlen (List.length_pos_of_mem hfirst))
    rw [List.mem_singleton] at hfirst hsecond
    exact absurd (hfirst.trans hsecond.symm) (by decide)
  obtain ⟨t, hT, -⟩ := hmaps'
  refine ⟨T, T', t, hset, hset', hT.redBlackTree, fun hvisits => ?_, hwrites⟩
  exact hwrites (hvisits.atMostRoot hT.repr).writesAll

end Rbtree
end KvStore
