import KvStore.Rbtree.Absent

/-! Taking a tree down. The loop is to remove the minimum while there is a node, but its test runs it
while the root is `NULL`, which the root of a tree never is. -/
namespace KvStore
open RedBlack

/-- The loop of `kvs_rbtree_destory`, with the nodes that it passes to `kvs_free`. -/
def destoryLoop : ℕ → Rbtree → Option (Rbtree × List Ptr)
  | 0, _ => none
  | n + 1, T =>
    if T.root = null then
      (rbtreeMini T n T.root).bind fun mini =>
      (rbtreeDelete n T mini).bind fun (T, cur) =>
      (destoryLoop n T).map fun r => (r.1, cur :: r.2)
    else some (T, [])

/-- The tree that is left, and the blocks passed to `kvs_free` in their order. -/
def kvsRbtreeDestory (n : ℕ) (T : Rbtree) : Option (Rbtree × List Ptr) :=
  (destoryLoop n T).map fun r => (r.1, r.2 ++ [r.1.nil])

namespace Rbtree

variable {T : Rbtree}

/-- What is left when the minimum is removed until no node is there, and the nodes in the order of
their removal. -/
inductive Emptied : Rbtree → List Ptr → Rbtree → Prop
  | done {T : Rbtree} (h : T.root = T.nil) : Emptied T [] T
  | remove {T T' T'' : Rbtree} {mini cur : Ptr} {nodes : List Ptr} (h : T.root ≠ T.nil)
      (hmini : Fuel.Returns (fun n => rbtreeMini T n T.root) mini)
      (hdelete : Fuel.Returns (fun n => rbtreeDelete n T mini) (T', cur))
      (hrest : Emptied T' nodes T'') : Emptied T (cur :: nodes) T''

/-- The call comes back, and it has removed the minimum until no node was there, released every node
exactly once and the sentinel at the end. -/
def ReleasesAll (T : Rbtree) : Prop :=
  ∃ T' nodes, Fuel.Returns (fun n => kvsRbtreeDestory n T) (T', nodes ++ [T.nil]) ∧
    Emptied T nodes T' ∧ nodes.Nodup ∧ ∀ q, q ∈ nodes ↔ T.InTree q

/-- The loop is left at once. -/
theorem kvsRbtreeDestory_returns (h : T.root ≠ null) :
    Fuel.Returns (fun n => kvsRbtreeDestory n T) (T, [T.nil]) := by
  apply Fuel.Returns.last
  intro n
  rw [kvsRbtreeDestory, destoryLoop, if_neg h]
  rfl

theorem ReleasesAll.root_eq (h : T.ReleasesAll) (hroot : T.root ≠ null) : T.root = T.nil := by
  obtain ⟨T', nodes, hret, -, -, hmem⟩ := h
  have hnodes : nodes = [] := by
    have he := congrArg Prod.snd (hret.unique (kvsRbtreeDestory_returns hroot))
    exact List.append_cancel_right (he.trans (List.nil_append _).symm)
  by_contra hne
  have hin := (hmem T.root).mpr (.root hne)
  rw [hnodes] at hin
  exact List.not_mem_nil hin

theorem releasesAll_of_empty (h : T.root = T.nil) (hroot : T.root ≠ null) : T.ReleasesAll := by
  refine ⟨T, [], kvsRbtreeDestory_returns hroot, .done h, List.nodup_nil, fun q => ?_⟩
  refine iff_of_false List.not_mem_nil fun hq => ?_
  induction hq with
  | root hne => exact hne h
  | child d _ _ ih => exact ih

theorem Built.root_ne_null (h : Built T) : T.root ≠ null := by
  obtain ⟨t, ht⟩ := h.reachable.holds
  exact ht.repr.root_ne_null

/-- A tree is taken down exactly when it has no node. -/
theorem kvsRbtreeDestory_releases_iff (h : Built T) : T.ReleasesAll ↔ T.root = T.nil :=
  ⟨fun hall => hall.root_eq h.root_ne_null, fun hnil => releasesAll_of_empty hnil h.root_ne_null⟩

theorem kvsRbtreeDestory_releases_iff_empty : (kvsRbtreeCreate blank 1).ReleasesAll :=
  (kvsRbtreeDestory_releases_iff (.create blank 1 (by decide))).mpr rfl

/-- The node of the first key stays. -/
theorem kvsRbtreeDestory_keeps_node : ∃ T,
    Fuel.Returns (fun n => kvsRbtreeSet n (kvsRbtreeCreate blank 1) ⟨some 2, true, true⟩
      (some (.read [97])) (some (.read [98]))) (0, T) ∧ ¬ T.ReleasesAll := by
  refine ⟨_, .last fun n => rfl, fun hall => ?_⟩
  exact absurd (hall.root_eq (by decide)) (by decide)

end Rbtree
end KvStore
