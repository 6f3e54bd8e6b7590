import KvStore.Rbtree.Unlink

/-! Where the blocks of the nodes come from. No operation on the tree moves a block into the pool of
`kvs_malloc` or out of it. -/
namespace KvStore
open RedBlack

namespace Rbtree

@[simp] theorem rotate_inPool (d : Side) (T : Rbtree) (x : Ptr) :
    (rbtreeRotate d T x).inPool = T.inPool := by
  simp only [rbtreeRotate]
  split_ifs <;> rfl

@[simp] theorem insertLink_inPool (T : Rbtree) (z y : Ptr) :
    (insertLink T z y).inPool = T.inPool := by
  simp only [insertLink]
  split_ifs <;> rfl

@[simp] theorem deleteSplice_inPool (T : Rbtree) (y x : Ptr) :
    (deleteSplice T y x).inPool = T.inPool := by
  simp only [deleteSplice]
  split_ifs <;> rfl

@[simp] theorem deleteSwap_inPool (T : Rbtree) (y z : Ptr) :
    (deleteSwap T y z).inPool = T.inPool := by
  simp only [deleteSwap]
  split_ifs <;> rfl

theorem insertFixupRound_inPool (d : Side) (T : Rbtree) (z : Ptr) :
    (insertFixupRound d T z).1.inPool = T.inPool := by
  unfold insertFixupRound
  dsimp only
  split_ifs
  · rfl
  · rw [rotate_inPool]
    exact rotate_inPool d T _
  · exact rotate_inPool _ _ _

theorem insertFixupLoop_inPool {n : ℕ} {T T' : Rbtree} {z : Ptr}
    (h : insertFixupLoop n T z = some T') : T'.inPool = T.inPool := by
  induction n generalizing T z with
  | zero => cases h
  | succ n ih =>
    rw [insertFixupLoop] at h
    by_cases hred : T.color (T.parent z) = .red
    · rw [if_pos hred] at h
      exact (ih h).trans (insertFixupRound_inPool _ _ _)
    · rw [if_neg hred] at h
      cases h
      rfl

theorem rbtreeInsert_inPool {n : ℕ} {T T' : Rbtree} {z : Ptr} (h : rbtreeInsert n T z = some T') :
    T'.inPool = T.inPool := by
  obtain ⟨y, -, h⟩ := Option.bind_eq_some_iff.mp h
  cases y with
  | none =>
    cases h
    rfl
  | some y =>
    obtain ⟨T₁, hT₁, h⟩ := Option.bind_eq_some_iff.mp h
    cases h
    exact (insertFixupLoop_inPool hT₁).trans (insertLink_inPool T z y)

theorem deleteRedSibling_inPool (d : Side) (T : Rbtree) (x w : Ptr) :
    (deleteRedSibling d T x w).1.inPool = T.inPool := by
  unfold deleteRedSibling
  dsimp only
  split_ifs
  · exact rotate_inPool _ _ _
  · rfl

theorem deleteInnerRed_inPool (d : Side) (T : Rbtree) (x w : Ptr) :
    (deleteInnerRed d T x w).1.inPool = T.inPool := by
  unfold deleteInnerRed
  dsimp only
  split_ifs
  · exact rotate_inPool _ _ _
  · rfl

theorem deleteBlackSibling_inPool (d : Side) (T : Rbtree) (x w : Ptr) :
    (deleteBlackSibling d T x w).1.inPool = T.inPool := by
  unfold deleteBlackSibling
  split_ifs
  · rfl
  · dsimp only [deleteOuterRed]
    rw [rotate_inPool]
    exact deleteInnerRed_inPool d T x w

theorem deleteFixupLoop_inPool {n : ℕ} {T T' : Rbtree} {x y : Ptr}
    (h : deleteFixupLoop n T x = some (T', y)) : T'.inPool = T.inPool := by
  induction n generalizing T x with
  | zero => cases h
  | succ n ih =>
    rw [deleteFixupLoop] at h
    by_cases hgo : x ≠ T.root ∧ T.color x = .black
    · rw [if_pos hgo] at h
      refine (ih h).trans ((deleteBlackSibling_inPool _ _ _ _).trans ?_)
      exact deleteRedSibling_inPool _ _ _ _
    · rw [if_neg hgo] at h
      cases h
      rfl

theorem rbtreeDelete_inPool {n : ℕ} {T T' : Rbtree} {z y : Ptr}
    (h : rbtreeDelete n T z = some (T', y)) : T'.inPool = T.inPool := by
  obtain ⟨y', -, h⟩ := Option.bind_eq_some_iff.mp h
  obtain ⟨T₁, hT₁, h⟩ := Option.bind_eq_some_iff.mp h
  cases h
  have hcut : (deleteSwap (deleteSplice T y (onlyChild T y)) y z).inPool = T.inPool := by simp
  split_ifs at hT₁ with hblack
  · obtain ⟨⟨T₂, x⟩, hT₂, hT₁⟩ := Option.bind_eq_some_iff.mp hT₁
    cases hT₁
    exact (deleteFixupLoop_inPool hT₂).trans hcut
  · cases hT₁
    exact hcut

end Rbtree
end KvStore
