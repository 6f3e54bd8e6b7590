import KvStore.Rbtree.Map

/-! Deleting a key that no node has. The search answers with the sentinel, which the check for
`NULL` lets pass, so that the call goes on to delete the sentinel. -/
namespace KvStore
open RedBlack RedBlack.RBTree

namespace Rbtree

variable {T T' : Rbtree} {t : RBTree Cell} {k : CString}

/-- Some node of the tree has the key. -/
def HasKey (T : Rbtree) (k : CString) : Prop := ∃ q, T.InTree q ∧ T.key q = k

/-- The trees that `kvs_rbtree_set` and `kvs_rbtree_del` build, whatever the memory held when the
sentinel was made in it. A `set` gets blocks that are not in use, if any, and a `del` is given a
key of the tree. The rest of the memory may change in between. -/
inductive Built : Rbtree → Prop
  | create (M : Rbtree) (p : Ptr) (hp : p ≠ null) : Built (kvsRbtreeCreate M p)
  | other {T T' : Rbtree} (h : Built T) (hs : T.SameTree T') : Built T'
  | set {T T' : Rbtree} {code : ℤ} (h : Built T) (m : NodeAlloc)
      (hm : ∀ node, m.node = some node → T.Free node) (key value : Option CString)
      (hret : Fuel.Returns (fun n => kvsRbtreeSet n T m key value) (code, T')) : Built T'
  | del {T T' : Rbtree} {code : ℤ} (h : Built T) (key : CString) (hk : T.HasKey key)
      (hret : Fuel.Returns (fun n => kvsRbtreeDel n T (some key)) (code, T')) : Built T'

theorem Holds.hasKey_iff (h : T.Holds t) : T.HasKey k ↔ ∃ a ∈ t.toList, a.key = k := by
  have hkey : ∀ a ∈ t.toList, T.key a.ptr = a.key := by
    intro a ha
    obtain ⟨ctx, c, L, R, rfl⟩ := exists_plug_of_mem ha
    exact (Repr.nodeAt (d := .left) h.repr).key
  constructor
  · rintro ⟨q, hq, rfl⟩
    obtain ⟨a, ha, rfl⟩ := List.mem_map.mp (h.repr.inTree_iff.mp hq)
    exact ⟨a, ha, (hkey a ha).symm⟩
  · rintro ⟨a, ha, rfl⟩
    exact ⟨a.ptr, h.repr.inTree_iff.mpr (List.mem_map_of_mem ha), hkey a ha⟩

/-- Writing to a block that is not in use changes nothing of the tree. -/
theorem Free.sameTree {node : Ptr} (h : T.Free node) (T' : Rbtree) (hroot : T'.root = T.root)
    (hnil : T'.nil = T.nil) (htouched : T'.touched = T.touched)
    (hagree : ∀ q, q ≠ node → T.Agree T' q) (hparent : ∀ q, q ≠ node → T'.parent q = T.parent q) :
    T.SameTree T' := by
  have hne : ∀ q, q = T.nil ∨ T.InTree q → q ≠ node := by
    rintro q hq rfl
    obtain hq | hq := hq
    · exact h.2.1 hq
    · exact h.2.2 hq
  exact ⟨hroot, hnil, htouched, fun q hq => hagree q (hne q hq), fun q hq => hparent q (hne q hq)⟩

theorem Free.setKey {node : Ptr} (h : T.Free node) (k : CString) : T.SameTree (T.setKey node k) :=
  h.sameTree _ rfl rfl rfl
    (fun q hq => ⟨rfl, by rw [setKey_key, Function.update_of_ne hq], rfl, fun _ => rfl⟩)
    fun _ _ => rfl

theorem Free.setValue {node : Ptr} (h : T.Free node) (v : CharPtr) :
    T.SameTree (T.setValue node v) :=
  h.sameTree _ rfl rfl rfl
    (fun q hq => ⟨rfl, rfl, by rw [setValue_value, Function.update_of_ne hq], fun _ => rfl⟩)
    fun _ _ => rfl

/-- A block stays free while another part of the memory is written. -/
theorem Holds.free_sameTree {node : Ptr} (h : T.Holds t) (hs : T.SameTree T') (hfree : T.Free node) :
    T'.Free node := (h.free_congr (h.sameTree hs) hs.nil).mpr hfree

theorem Reachable.set (h : Reachable T) {m : NodeAlloc}
    (hm : ∀ node, m.node = some node → T.Free node) {key value : Option CString} {code : ℤ}
    (hret : Fuel.Returns (fun n => kvsRbtreeSet n T m key value) (code, T')) : Reachable T' := by
  have hother : ∀ {c : ℤ} {T₁ : Rbtree}, Reachable T₁ →
      (∀ n, kvsRbtreeSet n T m key value = some (c, T₁)) → Reachable T' := by
    intro c T₁ h₁ heq
    cases hret.unique (.of_eq heq)
    exact h₁
  cases key with
  | none => exact hother h fun n => rfl
  | some k =>
    cases value with
    | none => exact hother h fun n => rfl
    | some v =>
      obtain ⟨node, key, value⟩ := m
      cases node with
      | none =>
        obtain ⟨n, hn⟩ := hret
        exact absurd (hn n le_rfl) (by simp [kvsRbtreeSet])
      | some node =>
        have hfree := hm node rfl
        obtain ⟨t, ht⟩ := h.holds
        have hkey := hfree.setKey k
        have hfree₁ := ht.free_sameTree hkey hfree
        have hvalue := hfree₁.setValue (.str v)
        cases key with
        | false => exact hother h fun n => rfl
        | true =>
          cases value with
          | false => exact hother (.other h hkey) fun n => rfl
          | true =>
            have h₂ : Reachable ((T.setKey node k).setValue node (.str v)) :=
              .other (.other h hkey) hvalue
            have hfree₂ := (ht.sameTree hkey).free_sameTree hvalue hfree₁
            obtain ⟨T₁, hins, -⟩ := ((ht.sameTree hkey).sameTree hvalue).insert hfree₂
            cases hret.unique (hins.bind (g := fun T _ => some ((0 : ℤ), T)) (.some _))
            exact .insert h₂ hfree₂ hins

theorem Reachable.del (h : Reachable T) (hk : T.HasKey k) {code : ℤ}
    (hret : Fuel.Returns (fun n => kvsRbtreeDel n T (some k)) (code, T')) : Reachable T' := by
  obtain ⟨t, ht⟩ := h.holds
  obtain ⟨a, ha, -, hnull, -, hsearch⟩ | ⟨hno, -, -⟩ := ht.search k
  · have hin := ht.repr.inTree_iff.mpr (List.mem_map_of_mem ha)
    obtain ⟨T₁, y, hdel, -⟩ := ht.delete hin
    have hpool := kvsRbtreeDel_inPool hsearch hnull hdel hret
    cases hret.unique (kvsRbtreeDel_returns hsearch hnull hdel hpool)
    exact .delete h hin hdel
  · obtain ⟨a, ha, he⟩ := ht.hasKey_iff.mp hk
    exact absurd he (hno a ha)

theorem Built.reachable (h : Built T) : Reachable T := by
  induction h with
  | create M p hp => exact .create M p hp
  | other _ hs ih => exact .other ih hs
  | set _ m hm key value hret ih => exact ih.set hm hret
  | del _ key hk hret ih => exact ih.del hk hret

/-- The call comes back with a positive code and the tree as it was. -/
def RefusesDel (T : Rbtree) (k : CString) : Prop :=
  ∃ code T', Fuel.Returns (fun n => kvsRbtreeDel n T (some k)) (code, T') ∧ 0 < code ∧
    T.SameTree T'

/-- A call that comes back has deleted something. -/
theorem kvsRbtreeDel_code (h : Built T) (hk : ¬ T.HasKey k) {code : ℤ}
    (hret : Fuel.Returns (fun n => kvsRbtreeDel n T (some k)) (code, T')) : code = 0 := by
  obtain ⟨t, ht⟩ := h.reachable.holds
  obtain ⟨a, ha, he, -⟩ | ⟨-, hnull, n, hsearch⟩ := ht.search k
  · exact absurd (ht.hasKey_iff.mpr ⟨a, ha, he⟩) hk
  · obtain ⟨m, hm⟩ := hret
    have hlast := hm (max n m) (le_max_right n m)
    simp only [kvsRbtreeDel, hsearch _ (le_max_left n m), Option.bind_some, if_neg hnull,
      Option.bind_eq_some_iff] at hlast
    obtain ⟨r, -, hr⟩ := hlast
    split_ifs at hr
    cases hr
    rfl

/-- No tree refuses a key that it does not have. -/
theorem kvsRbtreeDel_never_refuses (h : Built T) (hk : ¬ T.HasKey k) : ¬ T.RefusesDel k := by
  rintro ⟨code, T', hret, hpos, -⟩
  exact hpos.ne' (kvsRbtreeDel_code h hk hret)

/-- Memory whose blocks all point to the block of the sentinel. -/
def looped : Rbtree := { blank with child := fun _ _ => 1, parent := fun _ => 1 }

theorem looped_no_key (k : CString) : ¬ (kvsRbtreeCreate looped 1).HasKey k := by
  rintro ⟨q, hq, -⟩
  rw [(Holds.create (by decide)).repr.inTree_iff] at hq
  exact absurd hq List.not_mem_nil

theorem kvsRbtreeDel_never_refuses_empty :
    ¬ (kvsRbtreeCreate looped 1).RefusesDel (.read [97]) :=
  kvsRbtreeDel_never_refuses (.create looped 1 (by decide)) (looped_no_key _)

/-- The first call on an empty tree deletes the sentinel and reports that the key was there. -/
theorem kvsRbtreeDel_of_empty :
    (∃ T', Fuel.Returns (fun n => kvsRbtreeDel n (kvsRbtreeCreate looped 1) (some (.read [97])))
      (0, T')) ∧
    ¬ ∀ T k, Built T → ¬ T.HasKey k → T.RefusesDel k := by
  have hret : ∃ T', Fuel.Returns
      (fun n => kvsRbtreeDel n (kvsRbtreeCreate looped 1) (some (.read [97]))) (0, T') :=
    ⟨_, .last fun n => rfl⟩
  refine ⟨hret, fun hall => ?_⟩
  obtain ⟨code, T₁, hret₁, hpos, -⟩ :=
    hall _ (.read [97]) (.create looped 1 (by decide)) (looped_no_key _)
  exact hpos.ne' (kvsRbtreeDel_code (.create looped 1 (by decide)) (looped_no_key _) hret₁)

end Rbtree
end KvStore
