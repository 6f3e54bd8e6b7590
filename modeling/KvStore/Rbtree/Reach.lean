import KvStore.Rbtree.Insert

/-! The nodes that the pointers of a tree lead to, whatever the tree looks like. An insertion
makes no pointer to any node but its own, and a search ends at one of these nodes. -/
namespace KvStore
open RedBlack

namespace Rbtree

/-- The set has the root and the sentinel, and no pointer leads out of it. -/
structure Closed (T : Rbtree) (L : Ptr → Prop) : Prop where
  root : L T.root
  nil : L T.nil
  child : ∀ d x, L x → L (T.child d x)
  parent : ∀ x, L x → L (T.parent x)

/-- Every such set has the node. -/
def Reaches (T : Rbtree) (x : Ptr) : Prop := ∀ L, T.Closed L → L x

variable {T : Rbtree} {L : Ptr → Prop} {x y z p : Ptr} {d : Side}

theorem closed_reaches (T : Rbtree) : T.Closed T.Reaches where
  root := fun _ h => h.root
  nil := fun _ h => h.nil
  child := fun d x hx L h => h.child d x (hx L h)
  parent := fun x hx L h => h.parent x (hx L h)

namespace Closed

theorem setColor (h : T.Closed L) (x : Ptr) (c : Color) : (T.setColor x c).Closed L :=
  ⟨h.root, h.nil, h.child, h.parent⟩

theorem setKey (h : T.Closed L) (x : Ptr) (k : CString) : (T.setKey x k).Closed L :=
  ⟨h.root, h.nil, h.child, h.parent⟩

theorem setValue (h : T.Closed L) (x : Ptr) (v : CharPtr) : (T.setValue x v).Closed L :=
  ⟨h.root, h.nil, h.child, h.parent⟩

theorem touch (h : T.Closed L) (xs : List Ptr) : (T.touch xs).Closed L :=
  ⟨h.root, h.nil, h.child, h.parent⟩

theorem setRoot (h : T.Closed L) (hx : L x) : (T.setRoot x).Closed L :=
  ⟨hx, h.nil, h.child, h.parent⟩

theorem setChild (h : T.Closed L) (d : Side) (x : Ptr) (hp : L p) : (T.setChild d x p).Closed L where
  root := h.root
  nil := h.nil
  child := by
    intro e y hy
    rw [setChild_child]
    split_ifs
    · exact hp
    · exact h.child e y hy
  parent := h.parent

theorem setParent (h : T.Closed L) (x : Ptr) (hp : L p) : (T.setParent x p).Closed L where
  root := h.root
  nil := h.nil
  child := h.child
  parent := by
    intro y hy
    rw [setParent_parent, Function.update_apply]
    split_ifs
    · exact hp
    · exact h.parent y hy

theorem rotate (h : T.Closed L) (d : Side) (hx : L x) : (rbtreeRotate d T x).Closed L := by
  unfold rbtreeRotate
  extract_lets y T₁ T₂ T₃ T₄ T₅ T₆
  have hy : L y := h.child d.opp x hx
  have h₁ : T₁.Closed L := h.setChild d.opp x (h.child d y hy)
  have h₂ : T₂.Closed L := by
    unfold T₂
    split_ifs
    · exact h₁.setParent _ hx
    · exact h₁
  have h₃ : T₃.Closed L := h₂.setParent y (h₂.parent x hx)
  have h₄ : T₄.Closed L := by
    unfold T₄
    split_ifs
    · exact h₃.setRoot hy
    · exact h₃.setChild d _ hy
    · exact h₃.setChild d.opp _ hy
  have h₅ : T₅.Closed L := h₄.setChild d y hx
  exact (h₅.setParent x hy).touch _

theorem insertFixupRound (h : T.Closed L) (d : Side) (hz : L z) :
    (insertFixupRound d T z).1.Closed L ∧ L (insertFixupRound d T z).2 := by
  have hp := h.parent z hz
  have hg := h.parent _ hp
  unfold KvStore.insertFixupRound
  extract_lets y
  split_ifs with hred hinner
  · exact ⟨((h.setColor _ _).setColor _ _).setColor _ _, hg⟩
  · have hr := h.rotate d hp
    have hc := (hr.setColor ((rbtreeRotate d T (T.parent z)).parent (T.parent z)) .black)
    dsimp only
    refine ⟨?_, hp⟩
    apply (hc.setColor _ _).rotate
    exact hc.parent _ (hc.parent _ hp)
  · have hc := h.setColor (T.parent z) .black
    refine ⟨?_, hz⟩
    apply (hc.setColor _ _).rotate
    exact hc.parent _ (hc.parent _ hz)

theorem insertFixupLoop {n : ℕ} {T' : Rbtree} (h : T.Closed L) (hz : L z)
    (hr : insertFixupLoop n T z = some T') : T'.Closed L := by
  induction n generalizing T z with
  | zero => cases hr
  | succ n ih =>
    rw [KvStore.insertFixupLoop] at hr
    by_cases hred : T.color (T.parent z) = .red
    · rw [if_pos hred] at hr
      obtain ⟨h', hz'⟩ := h.insertFixupRound
        (if T.parent z = T.child .left (T.parent (T.parent z)) then .left else .right) hz
      exact ih h' hz' hr
    · rw [if_neg hred] at hr
      cases hr
      exact h

/-- A linked node joins the set; what its own fields held before does not matter. -/
theorem insertLink (h : T.Closed L) (z : Ptr) (hy : L y) :
    (insertLink T z y).Closed fun x => x = z ∨ L x where
  root := by
    simp only [KvStore.insertLink]
    split_ifs
    · exact .inl rfl
    · exact .inr h.root
    · exact .inr h.root
  nil := by
    rw [insertLink_nil]
    exact .inr h.nil
  child := by
    rintro e x hx
    by_cases hxz : x = z
    · rw [hxz, insertLink_child_self]
      exact .inr h.nil
    have hc := h.child e x (hx.resolve_left hxz)
    by_cases hxy : x = y
    · subst hxy
      simp only [KvStore.insertLink]
      split_ifs
      · simp [hxz, hc]
      · by_cases he : e = .left
        · simp [hxz, he]
        · simp [hxz, he, hc]
      · by_cases he : e = .right
        · simp [hxz, he]
        · simp [hxz, he, hc]
    · rw [insertLink_child_of_ne e hxz hxy]
      exact .inr hc
  parent := by
    intro x hx
    rw [insertLink_parent, Function.update_apply]
    split_ifs with hxz
    · exact .inr hy
    · exact .inr (h.parent x (hx.resolve_left hxz))

theorem insertDescend {n : ℕ} {r : Option Ptr} (h : T.Closed L) (hy : L y) (hx : L x)
    (hr : insertDescend T z n y x = some r) : ∀ q, r = some q → L q := by
  induction n generalizing x y with
  | zero => cases hr
  | succ n ih =>
    rw [KvStore.insertDescend] at hr
    split_ifs at hr
    · exact ih hx (h.child .left x hx) hr
    · exact ih hx (h.child .right x hx) hr
    · cases hr
      intro q hq
      cases hq
    · cases hr
      intro q hq
      cases hq
      exact hy

/-- Either the key was met and nothing has changed, or the node is linked. -/
theorem insert {n : ℕ} {T' : Rbtree} (h : T.Closed L) (hr : rbtreeInsert n T z = some T') :
    T' = T ∨ KvStore.insertDescend T z n T.nil T.root ≠ some none ∧
      T'.Closed fun x => x = z ∨ L x := by
  obtain ⟨y, hy, hr⟩ := Option.bind_eq_some_iff.mp hr
  cases y with
  | none =>
    cases hr
    exact .inl rfl
  | some y =>
    have hy' := h.insertDescend h.nil h.root hy y rfl
    obtain ⟨T₁, hT₁, hr⟩ := Option.bind_eq_some_iff.mp hr
    cases hr
    refine .inr ⟨?_, ((h.insertLink z hy').insertFixupLoop (.inl rfl) hT₁).setColor _ _⟩
    rw [hy]
    exact fun he => nomatch he

theorem search {n : ℕ} {key : CString} (h : T.Closed L) (hx : L x)
    (hr : rbtreeSearchFrom T key n x = some y) : L y := by
  induction n generalizing x with
  | zero => cases hr
  | succ n ih =>
    rw [rbtreeSearchFrom] at hr
    split_ifs at hr
    · exact ih (h.child .left x hx) hr
    · exact ih (h.child .right x hx) hr
    · cases hr
      exact hx
    · cases hr
      exact h.nil

/-- What a search finds is met on the way to a place for a node of that key outside the set. -/
theorem insertDescend_found {n : ℕ} {key : CString} {v : CharPtr} (h : T.Closed L) (hz : ¬ L z)
    (hx : L x) (hr : rbtreeSearchFrom T key n x = some p) (hp : p ≠ T.nil) (y : Ptr) :
    KvStore.insertDescend ((T.setKey z key).setValue z v) z n y x = some none := by
  induction n generalizing x y with
  | zero => cases hr
  | succ n ih =>
    have hxz : x ≠ z := fun he => hz (he ▸ hx)
    rw [rbtreeSearchFrom] at hr
    simp only [KvStore.insertDescend, setValue_nil, setKey_nil, setValue_key, setKey_key,
      setValue_child, setKey_child, Function.update_self, Function.update_of_ne hxz]
    split_ifs at hr ⊢
    · exact ih (h.child .left x hx) hr x
    · exact ih (h.child .right x hx) hr x
    · rfl
    · cases hr
      exact absurd rfl hp

end Closed

theorem insertFixupRound_value (d : Side) (T : Rbtree) (z : Ptr) :
    (insertFixupRound d T z).1.value = T.value := by
  unfold insertFixupRound
  dsimp only
  split_ifs
  · rfl
  · rw [rotate_value]
    exact rotate_value d T _
  · exact rotate_value _ _ _

theorem insertFixupLoop_value {n : ℕ} {T T' : Rbtree} {z : Ptr}
    (h : insertFixupLoop n T z = some T') : T'.value = T.value := by
  induction n generalizing T z with
  | zero => cases h
  | succ n ih =>
    rw [insertFixupLoop] at h
    by_cases hred : T.color (T.parent z) = .red
    · rw [if_pos hred] at h
      exact (ih h).trans (insertFixupRound_value _ _ _)
    · rw [if_neg hred] at h
      cases h
      rfl

/-- An insertion moves no value. -/
theorem rbtreeInsert_value {n : ℕ} {T T' : Rbtree} {z : Ptr} (h : rbtreeInsert n T z = some T') :
    T'.value = T.value := by
  obtain ⟨y, -, h⟩ := Option.bind_eq_some_iff.mp h
  cases y with
  | none =>
    cases h
    rfl
  | some y =>
    obtain ⟨T₁, hT₁, h⟩ := Option.bind_eq_some_iff.mp h
    cases h
    exact (insertFixupLoop_value hT₁).trans (insertLink_value T z y)

end Rbtree

end KvStore
