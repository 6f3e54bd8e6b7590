import KvStore.Lib.Alike
import KvStore.Rbtree.Model

/-! The result of a call of the tree engine stays when its loops may go on longer. -/
namespace KvStore
open Fuel

namespace Rbtree

theorem insertDescend_growing (T : Rbtree) (z y x : Ptr) :
    Growing fun n => insertDescend T z n y x := by
  intro n r h
  induction n generalizing y x with
  | zero => cases h
  | succ n ih =>
    simp only at h ⊢
    rw [insertDescend] at h ⊢
    split_ifs at h ⊢
    · exact ih x _ h
    · exact ih x _ h
    · exact h
    · exact h

theorem insertFixupLoop_growing (T : Rbtree) (z : Ptr) :
    Growing fun n => insertFixupLoop n T z := by
  intro n r h
  induction n generalizing T z with
  | zero => cases h
  | succ n ih =>
    simp only at h ⊢
    rw [insertFixupLoop] at h ⊢
    split_ifs at h ⊢
    · exact ih _ _ h
    · exact ih _ _ h
    · exact h

theorem rbtreeInsert_growing (T : Rbtree) (z : Ptr) : Growing fun n => rbtreeInsert n T z := by
  apply (insertDescend_growing T z T.nil T.root).bind (k := fun y n => insertAt n T z y)
  rintro (_ | y)
  · exact .const _
  · exact (insertFixupLoop_growing _ z).bind fun _ => .const _

theorem rbtreeSearchFrom_growing (T : Rbtree) (key : CString) (x : Ptr) :
    Growing fun n => rbtreeSearchFrom T key n x := by
  intro n r h
  induction n generalizing x with
  | zero => cases h
  | succ n ih =>
    simp only at h ⊢
    rw [rbtreeSearchFrom] at h ⊢
    split_ifs at h ⊢
    · exact ih _ h
    · exact ih _ h
    · exact h
    · exact h

theorem rbtreeMini_growing (T : Rbtree) (x : Ptr) : Growing fun n => rbtreeMini T n x := by
  intro n r h
  induction n generalizing x with
  | zero => cases h
  | succ n ih =>
    simp only at h ⊢
    rw [rbtreeMini] at h ⊢
    split_ifs at h ⊢
    · exact ih _ h
    · exact h

theorem rbtreeClimb_growing (T : Rbtree) (x y : Ptr) : Growing fun n => rbtreeClimb T n x y := by
  intro n r h
  induction n generalizing x y with
  | zero => cases h
  | succ n ih =>
    simp only at h ⊢
    rw [rbtreeClimb] at h ⊢
    split_ifs at h ⊢
    · exact ih _ _ h
    · exact h

theorem rbtreeSuccessor_growing (T : Rbtree) (x : Ptr) :
    Growing fun n => rbtreeSuccessor T n x := by
  unfold rbtreeSuccessor
  split_ifs
  · exact rbtreeMini_growing T _
  · exact rbtreeClimb_growing T _ _

theorem deleteFixupLoop_growing (T : Rbtree) (x : Ptr) :
    Growing fun n => deleteFixupLoop n T x := by
  intro n r h
  induction n generalizing T x with
  | zero => cases h
  | succ n ih =>
    simp only at h ⊢
    rw [deleteFixupLoop] at h ⊢
    split_ifs at h ⊢
    · exact ih _ _ h
    · exact ih _ _ h
    · exact h

theorem deleteUnlink_growing (T : Rbtree) (z y : Ptr) : Growing fun n => deleteUnlink n T z y := by
  unfold deleteUnlink
  dsimp only
  split_ifs
  · exact ((deleteFixupLoop_growing _ _).bind fun _ => .const _).bind fun _ => .const _
  · exact .const _

theorem rbtreeDelete_growing (T : Rbtree) (z : Ptr) : Growing fun n => rbtreeDelete n T z := by
  unfold rbtreeDelete
  apply Growing.bind (k := fun y n => deleteUnlink n T z y)
  · split_ifs
    · exact .const _
    · exact rbtreeSuccessor_growing T z
  · exact fun y => deleteUnlink_growing T z y

/-- A `set` looks at its three answers before it goes into a loop. -/
theorem kvsRbtreeSet_growing (T : Rbtree) (m : NodeAlloc) (key value : Option CString) :
    Growing fun n => kvsRbtreeSet n T m key value := by
  cases key with
  | none => exact .const _
  | some k =>
    cases value with
    | none => exact .const _
    | some v =>
      obtain ⟨node, key, value⟩ := m
      cases node with
      | none => exact .const _
      | some p =>
        cases key with
        | false => exact .const _
        | true =>
          cases value with
          | false => exact .const _
          | true => exact (rbtreeInsert_growing _ p).bind fun _ => .const _

theorem kvsRbtreeGet_growing (T : Rbtree) (key : Option CString) :
    Growing fun n => kvsRbtreeGet n T key := by
  cases key with
  | none => exact .const _
  | some k => exact (rbtreeSearchFrom_growing T k T.root).bind fun _ => .const _

end Rbtree
end KvStore
