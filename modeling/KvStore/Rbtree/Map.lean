import KvStore.Rbtree.Invariant
import KvStore.Rbtree.Pool
import KvStore.Lib.KeyValue

/-! The red-black tree engine as a finite map: the calls of `kvs_rbtree.c` answer as the map
does, along every run. -/
namespace KvStore
open RedBlack RedBlack.RBTree

namespace Rbtree

variable {T T' : Rbtree} {t : RBTree Cell} {k v : CString}

theorem rbtreeSearchFrom_returns {p : Ptr} (hl : T.Linked p t) (hn : T.nil ∉ ptrs t)
    (hs : Sorted t.toList) :
    (∃ a ∈ t.toList, a.key = k ∧
      Fuel.Returns (fun n => rbtreeSearchFrom T k n (ptrOf T.nil t)) a.ptr) ∨
    (∀ a ∈ t.toList, a.key ≠ k) ∧
      Fuel.Returns (fun n => rbtreeSearchFrom T k n (ptrOf T.nil t)) T.nil := by
  induction t generalizing p with
  | nil => exact .inr ⟨by simp [toList], .last fun n => by simp [rbtreeSearchFrom]⟩
  | node c l a r ihl ihr =>
    obtain ⟨ha, hll, hlr⟩ := hl
    have hro : T.child .right a.ptr = ptrOf T.nil r := ha.outer
    simp only [← show join .left c l a r = node c l a r from rfl, mem_ptrs_join, not_or] at hn
    have hstep : ∀ n, rbtreeSearchFrom T k (n + 1) (ptrOf T.nil (node c l a r)) =
        if CString.strcmp k a.key < 0 then rbtreeSearchFrom T k n (ptrOf T.nil l)
        else if CString.strcmp k a.key > 0 then rbtreeSearchFrom T k n (ptrOf T.nil r)
        else some a.ptr := by
      intro n
      simp [rbtreeSearchFrom, ptrOf, Ne.symm hn.1, ha.inner, hro, ha.key]
    have hord := hs
    simp only [Sorted, toList, List.pairwise_append, List.pairwise_cons] at hord
    rcases lt_trichotomy k a.key with hk | hk | hk
    · have hstep' := fun n => (hstep n).trans (if_pos ((CString.strcmp_neg _ _).mpr hk))
      obtain ⟨b, hb, hkb, hret⟩ | ⟨hne, hret⟩ := ihl hll hn.2.1 hs.left
      · exact .inl ⟨b, by simp [toList, hb], hkb, .succ hstep' hret⟩
      · refine .inr ⟨fun b hb => ?_, .succ hstep' hret⟩
        simp only [toList, List.mem_append, List.mem_cons] at hb
        obtain hb | rfl | hb := hb
        · exact hne b hb
        · exact hk.ne'
        · exact (hk.trans (hord.2.1.1 b hb)).ne'
    · refine .inl ⟨a, by simp [toList], hk.symm, .last fun n => ?_⟩
      rw [hstep, (CString.strcmp_eq_zero _ _).mpr hk]
      simp
    · have hstep' := fun n => ((hstep n).trans
        (if_neg ((CString.strcmp_neg _ _).not.mpr (not_lt.mpr hk.le)))).trans
        (if_pos ((CString.strcmp_pos _ _).mpr hk))
      obtain ⟨b, hb, hkb, hret⟩ | ⟨hne, hret⟩ := ihr hlr hn.2.2 hs.right
      · exact .inl ⟨b, by simp [toList, hb], hkb, .succ hstep' hret⟩
      · refine .inr ⟨fun b hb => ?_, .succ hstep' hret⟩
        simp only [toList, List.mem_append, List.mem_cons] at hb
        obtain hb | rfl | hb := hb
        · exact ((hord.2.2 b hb a (by simp)).trans hk).ne
        · exact hk.ne
        · exact hne b hb

/-- The search finds the node of a key, or the sentinel when no node has it. -/
theorem Holds.search (h : T.Holds t) (k : CString) :
    (∃ a ∈ t.toList, a.key = k ∧ a.ptr ≠ null ∧ a.ptr ≠ T.nil ∧
      Fuel.Returns (fun n => rbtreeSearch n T k) a.ptr) ∨
    (∀ a ∈ t.toList, a.key ≠ k) ∧ T.nil ≠ null ∧
      Fuel.Returns (fun n => rbtreeSearch n T k) T.nil := by
  have hn := h.repr.nodup
  simp only [List.nodup_cons, List.mem_cons, not_or] at hn
  obtain ⟨⟨hnn, hnull⟩, hnil, -⟩ := hn
  unfold rbtreeSearch
  rw [h.repr.root]
  obtain ⟨a, ha, hk, hret⟩ | ⟨hne, hret⟩ :=
    rbtreeSearchFrom_returns (k := k) h.repr.linked hnil h.sorted
  · have hm : a.ptr ∈ ptrs t := List.mem_map_of_mem ha
    exact .inl ⟨a, ha, hk, fun he => hnull (he ▸ hm), fun he => hnil (he ▸ hm), hret⟩
  · exact .inr ⟨hne, Ne.symm hnn, hret⟩

/-- Storing a value at a node of the tree. -/
theorem Holds.setValue {a : Cell} (h : T.Holds t) (ha : a ∈ t.toList) (w : CharPtr) :
    ∃ l r t', t.toList = l ++ a :: r ∧ (T.setValue a.ptr w).Holds t' ∧
      t'.toList = l ++ ⟨a.ptr, a.key, w⟩ :: r := by
  obtain ⟨hr, hs, n, hb⟩ := h
  obtain ⟨ctx, c, L, R, rfl⟩ := exists_plug_of_mem ha
  obtain ⟨e, m, hbal, hf⟩ := Fits.of_plug hb
  have hl : ∀ b : Cell, (plug ctx (node c L b R)).toList =
      (before ctx ++ L.toList) ++ b :: (R.toList ++ after ctx) := by
    intro b
    simp [toList_plug, toList]
  have hbal' : (node c L ⟨a.ptr, a.key, w⟩ R).Balanced e m := by
    cases hbal with
    | red hl hr => exact .red hl hr
    | black hl hr => exact .black hl hr
  refine ⟨_, _, _, hl a, ⟨Repr.setValue (d := .left) hr w, ?_, hf.plug hbal'⟩, hl _⟩
  rw [hl] at hs
  simp only [join, hl]
  simp only [Sorted, List.pairwise_append, List.pairwise_cons, List.mem_cons, forall_eq_or_imp]
    at hs ⊢
  exact hs

/-- What a `set` writes into its block before it hands it to the insertion. -/
theorem Holds.setKey_free {z : Ptr} (h : T.Holds t) (hz : T.Free z) (k : CString) :
    (T.setKey z k).Holds t := by
  have hmem : z ∉ ptrs t := fun hx => h.repr.free_iff.mp hz (by simp [hx])
  exact ⟨h.repr.setKey_of_notMem hmem k, h.sorted, h.balanced⟩

theorem Holds.setEntry {z : Ptr} (h : T.Holds t) (hz : T.Free z) (k : CString) (w : CharPtr) :
    ((T.setKey z k).setValue z w).Holds t := by
  have hmem : z ∉ ptrs t := fun hx => h.repr.free_iff.mp hz (by simp [hx])
  obtain ⟨hr, hs, hb⟩ := h.setKey_free hz k
  exact ⟨hr.setValue_of_notMem hmem w, hs, hb⟩

/-- Two heaps with the same nodes leave the same blocks free. -/
theorem Holds.free_congr {q : Ptr} (h : T.Holds t) (h' : T'.Holds t) (hnil : T'.nil = T.nil) :
    T'.Free q ↔ T.Free q := by
  rw [h.repr.free_iff, h'.repr.free_iff, hnil]

open KeyValue

variable {m : CString → Option CString} {node : Ptr}

/-- The nodes of the tree store exactly the entries of the map. -/
def Maps (T : Rbtree) (m : CString → Option CString) : Prop :=
  ∃ t, T.Holds t ∧ Represents (t.toList.map Cell.entry) (strings m)

theorem Maps.create {M : Rbtree} {p : Ptr} (hp : p ≠ null) :
    (kvsRbtreeCreate M p).Maps fun _ => none :=
  ⟨.nil, .create hp, .nil⟩

/-- Some block is not in use. -/
theorem Maps.exists_free (h : T.Maps m) : ∃ p, T.Free p := by
  obtain ⟨t, hT, -⟩ := h
  obtain ⟨p, hp⟩ := Infinite.exists_notMem_finset (null :: T.nil :: ptrs t).toFinset
  refine ⟨p, hT.repr.free_iff.mpr ?_⟩
  simpa using hp

theorem mem_keys {t : RBTree Cell} :
    k ∈ (t.toList.map Cell.entry).map Prod.fst ↔ ∃ a ∈ t.toList, a.key = k := by
  simp [Cell.entry]

theorem Maps.set (h : T.Maps m) (hz : T.Free node) (k v : CString) :
    ∃ T', Fuel.Returns (fun n => kvsRbtreeSet n T ⟨some node, true, true⟩ (some k) (some v))
      (0, T') ∧ T'.Maps (next m (.set k v)) := by
  obtain ⟨t, hT, hm⟩ := h
  set T₁ := (T.setKey node k).setValue node (.str v) with hT₁
  have hH : T₁.Holds t := hT.setEntry hz k (.str v)
  have hz₁ : T₁.Free node := (hT.free_congr hH rfl).mpr hz
  have hk₁ : T₁.key node = k := by simp [hT₁]
  have hv₁ : T₁.value node = .str v := by simp [hT₁]
  obtain ⟨T', hret, hT'⟩ := hH.insert hz₁
  rw [hk₁, hv₁] at hT'
  refine ⟨T', hret.bind (g := fun T _ => some (0, T)) (.some _), ?_⟩
  have hs : (m k).isSome ↔ ∃ a ∈ t.toList, a.key = k := by
    rw [← mem_keys, ← hm.isSome_iff, strings, Option.isSome_map]
  obtain ⟨hex, rfl⟩ | ⟨hne, t', hH', hperm⟩ := hT'
  · refine ⟨t, hH, ?_⟩
    rwa [next, if_pos (hs.mpr hex)]
  · have hno : ¬ ∃ a ∈ t.toList, a.key = k := by simpa using hne
    refine ⟨t', hH', ?_⟩
    rw [next, if_neg (hs.not.mpr hno), strings_update]
    exact (hm.cons (mem_keys.not.mpr hno)).perm (hperm.map Cell.entry)

/-- A `set` with a block for its node returns whether or not there is memory for the key and the
value. -/
theorem Maps.set_block (h : T.Maps m) (hz : T.Free node) (key value : Bool) (k v : CString) :
    ∃ T', Fuel.Returns (fun n => kvsRbtreeSet n T ⟨some node, key, value⟩ (some k) (some v))
        (if key && value then 0 else -2, T') ∧
      T'.Maps (if key && value then next m (.set k v) else m) ∧
      ∀ q, q ≠ node → T.Free q → T'.Free q := by
  have hfree := hz
  obtain ⟨t, hT, hm⟩ := id h
  have hkey := hT.setKey_free hz k
  cases key with
  | false => exact ⟨T, .of_eq fun n => rfl, h, fun q _ hq => hq⟩
  | true =>
    cases value with
    | false =>
      exact ⟨T.setKey node k, .of_eq fun n => rfl, ⟨t, hkey, hm⟩,
        fun q _ hq => (hT.free_congr hkey rfl).mpr hq⟩
    | true =>
      obtain ⟨T', hret, hmaps⟩ := h.set hz k v
      refine ⟨T', hret, hmaps, fun q hqz hq => ?_⟩
      have hH := hT.setEntry hz k (.str v)
      have hall : ∀ p, T.Free p → ((T.setKey node k).setValue node (.str v)).Free p :=
        fun p hp => (hT.free_congr hH rfl).mpr hp
      obtain ⟨T₁, hins, -⟩ := hH.insert (hall node hfree)
      have hret₁ : Fuel.Returns
          (fun n => kvsRbtreeSet n T ⟨some node, true, true⟩ (some k) (some v)) (0, T₁) :=
        hins.bind (g := fun T _ => some (0, T)) (.some _)
      cases hret.unique hret₁
      exact hH.free_insert (hall node hfree) hins (hall q hq) hqz

/-- What a search finds, in terms of the map. -/
theorem Maps.search (h : T.Maps m) (k : CString) :
    (∃ t a v, T.Holds t ∧ Represents (t.toList.map Cell.entry) (strings m) ∧ a ∈ t.toList ∧
      a.key = k ∧ a.ptr ≠ null ∧ a.ptr ≠ T.nil ∧ a.value = .str v ∧ m k = some v ∧
      T.value a.ptr = .str v ∧ Fuel.Returns (fun n => rbtreeSearch n T k) a.ptr) ∨
    m k = none ∧ T.nil ≠ null ∧ Fuel.Returns (fun n => rbtreeSearch n T k) T.nil := by
  obtain ⟨t, hT, hm⟩ := h
  obtain ⟨a, ha, hk, hnull, hnil, hret⟩ | ⟨hne, hnull, hret⟩ := hT.search k
  · have he : strings m k = some a.value :=
      (hm.mem_iff k a.value).mpr (List.mem_map.mpr ⟨a, ha, by rw [Cell.entry, hk]⟩)
    obtain ⟨v, hv, hav⟩ := Option.map_eq_some_iff.mp he
    obtain ⟨ctx, c, L, R, rfl⟩ := exists_plug_of_mem ha
    have hval := (Repr.nodeAt (d := .left) hT.repr).value
    exact .inl ⟨_, a, v, hT, hm, ha, hk, hnull, hnil, hav.symm, hv, hval.trans hav.symm, hret⟩
  · have hno : strings m k = none := hm.eq_none (mem_keys.not.mpr (by simpa using hne))
    exact .inr ⟨Option.map_eq_none_iff.mp hno, hnull, hret⟩

section Searches

variable {p y : Ptr}

theorem kvsRbtreeGet_returns (hs : Fuel.Returns (fun n => rbtreeSearch n T k) p) (hnull : p ≠ null) :
    Fuel.Returns (fun n => kvsRbtreeGet n T (some k)) (if p = T.nil then .null else T.value p) := by
  apply hs.bind (g := fun node _ => if node = null then some .null
    else if node = T.nil then some .null else some (T.value node))
  refine .of_eq fun _ => ?_
  rw [if_neg hnull, ← apply_ite some]

theorem kvsRbtreeExist_returns (hs : Fuel.Returns (fun n => rbtreeSearch n T k) p)
    (hnull : p ≠ null) :
    Fuel.Returns (fun n => kvsRbtreeExist n T (some k)) (if p = T.nil then 1 else 0) := by
  apply hs.bind (g := fun node _ => if node = null then some 1
    else if node = T.nil then some 1 else some 0)
  refine .of_eq fun _ => ?_
  rw [if_neg hnull, ← apply_ite some]

theorem kvsRbtreeMod_returns (hs : Fuel.Returns (fun n => rbtreeSearch n T k) p)
    (hnull : p ≠ null) (v : CString) :
    Fuel.Returns (fun n => kvsRbtreeMod n T true (some k) (some v))
      (if p = T.nil then (1, T) else (0, T.setValue p (.str v))) := by
  apply hs.bind (g := fun node _ => if node = null then some (1, T)
    else if node = T.nil then some (1, T) else some (0, T.setValue node (.str v)))
  refine .of_eq fun _ => ?_
  rw [if_neg hnull, ← apply_ite some]

theorem kvsRbtreeDel_returns (hs : Fuel.Returns (fun n => rbtreeSearch n T k) p)
    (hnull : p ≠ null) (hdel : Fuel.Returns (fun n => rbtreeDelete n T p) (T', y))
    (hpool : T.inPool y = false) :
    Fuel.Returns (fun n => kvsRbtreeDel n T (some k)) (0, T') := by
  apply hs.bind (g := fun node n => if node = null then some (1, T)
    else (rbtreeDelete n T node).bind fun r => if T.inPool r.2 then none else some (0, r.1))
  simp only [hnull, if_false]
  apply hdel.bind (g := fun r _ => if T.inPool r.2 then none else some ((0 : ℤ), r.1))
  simp only [hpool, Bool.false_eq_true, if_false]
  exact .some _

/-- The call ends the program when it takes a chunk of the pool out of the tree. -/
theorem kvsRbtreeDel_inPool {r : ℤ × Rbtree} (hs : Fuel.Returns (fun n => rbtreeSearch n T k) p)
    (hnull : p ≠ null) (hdel : Fuel.Returns (fun n => rbtreeDelete n T p) (T', y))
    (hret : Fuel.Returns (fun n => kvsRbtreeDel n T (some k)) r) : T.inPool y = false := by
  obtain ⟨i, hi⟩ := hs
  obtain ⟨j, hj⟩ := hdel
  obtain ⟨l, hl⟩ := hret
  have hlast := hl (max i (max j l)) (by omega)
  simp only [kvsRbtreeDel, hi (max i (max j l)) (by omega), hj (max i (max j l)) (by omega),
    Option.bind_some, if_neg hnull] at hlast
  split_ifs at hlast with hpool
  exact Bool.eq_false_of_not_eq_true hpool

end Searches

theorem Maps.get (h : T.Maps m) (k : CString) :
    Fuel.Returns (fun n => kvsRbtreeGet n T (some k)) ((m k).elim .null .str) := by
  obtain ⟨t, a, v, -, -, -, -, hnull, hnil, -, hv, hval, hret⟩ | ⟨hv, hnull, hret⟩ := h.search k
  · have hget := kvsRbtreeGet_returns hret hnull
    rw [if_neg hnil, hval] at hget
    rwa [hv]
  · have hget := kvsRbtreeGet_returns hret hnull
    rw [if_pos rfl] at hget
    rwa [hv]

theorem Maps.exist (h : T.Maps m) (k : CString) :
    Fuel.Returns (fun n => kvsRbtreeExist n T (some k)) (if (m k).isSome then 0 else 1) := by
  obtain ⟨t, a, v, -, -, -, -, hnull, hnil, -, hv, -, hret⟩ | ⟨hv, hnull, hret⟩ := h.search k
  · have hexist := kvsRbtreeExist_returns hret hnull
    rw [if_neg hnil] at hexist
    rwa [hv]
  · have hexist := kvsRbtreeExist_returns hret hnull
    rw [if_pos rfl] at hexist
    rwa [hv]

theorem Maps.mod (h : T.Maps m) (k v : CString) :
    ∃ T', Fuel.Returns (fun n => kvsRbtreeMod n T true (some k) (some v))
      (if (m k).isSome then 0 else 1, T') ∧ T'.Maps (next m (.mod k v)) := by
  obtain ⟨t, a, w, hT, hm, ha, rfl, hnull, hnil, hw, hv, -, hret⟩ | ⟨hv, hnull, hret⟩ := h.search k
  · obtain ⟨l, r, t', hl, hT', hl'⟩ := hT.setValue ha (.str v)
    have hmod := kvsRbtreeMod_returns hret hnull v
    rw [if_neg hnil] at hmod
    refine ⟨T.setValue a.ptr (.str v), ?_, t', hT', ?_⟩
    · rwa [hv]
    · rw [hl, List.map_append, List.map_cons] at hm
      rw [next, if_pos (by simp [hv]), strings_update, hl', List.map_append, List.map_cons]
      exact Represents.replace (k := a.key) (v := a.value) hm
  · have hmod := kvsRbtreeMod_returns hret hnull v
    rw [if_pos rfl] at hmod
    refine ⟨T, ?_, ?_⟩
    · rwa [hv]
    · rw [next, if_neg (by simp [hv])]
      exact h

/-- The node that the deletion of a key takes out of the tree is a block of `malloc`. -/
def Releases (T : Rbtree) (k : CString) : Prop :=
  ∀ z y, T.InTree z → T.key z = k → T.TakesOut z y → T.inPool y = false

/-- A `del` comes back exactly when `free` takes the node, and then the key is deleted. -/
theorem Maps.del (h : T.Maps m) (hk : (m k).isSome) :
    ∃ T', T'.Maps (next m (.del k)) ∧
      (T.Releases k → Fuel.Returns (fun n => kvsRbtreeDel n T (some k)) (0, T')) ∧
      ∀ r, Fuel.Returns (fun n => kvsRbtreeDel n T (some k)) r → T.Releases k := by
  obtain ⟨t, a, w, hT, hm, ha, rfl, hnull, -, -, -, -, hret⟩ | ⟨hv, -, -⟩ := h.search k
  · have hin := hT.repr.inTree_iff.mpr (List.mem_map_of_mem ha)
    have hka := hT.key ha
    obtain ⟨T', y, hdel, hout, l, b, r, t', hl, hb, hT', he⟩ := hT.delete hin
    have hn := hT.repr.nodup
    simp only [List.nodup_cons] at hn
    obtain rfl : b = a := List.inj_on_of_nodup_map hn.2.2 (by simp [hl]) ha hb
    refine ⟨T', ⟨t', hT', ?_⟩, fun hfree => ?_, fun r hr => ?_⟩
    · rw [hl, List.map_append, List.map_cons] at hm
      rw [next, strings_update, he, List.map_append]
      exact Represents.erase (k := b.key) (v := b.value) hm
    · exact kvsRbtreeDel_returns hret hnull hdel (hfree _ _ hin hka hout)
    · intro z y' hz hkz hout'
      obtain rfl := hT.inTree_inj hz hin (hkz.trans hka.symm)
      rw [hT.takesOut_unique hout' hout]
      exact kvsRbtreeDel_inPool hret hnull hdel hr
  · simp [hv] at hk

/-- A call of the engine with memory for everything it asks for; a `set` gets the block `node`
for its node. -/
def call (n : ℕ) (T : Rbtree) (node : Ptr) : Call CString CString → Option (Reply CharPtr × Rbtree)
  | .set k v => (kvsRbtreeSet n T ⟨some node, true, true⟩ (some k) (some v)).bind fun r =>
      some (.status r.1, r.2)
  | .get k => (kvsRbtreeGet n T (some k)).bind fun v => some (.value v, T)
  | .mod k v => (kvsRbtreeMod n T true (some k) (some v)).bind fun r => some (.status r.1, r.2)
  | .del k => (kvsRbtreeDel n T (some k)).bind fun r => some (.status r.1, r.2)
  | .exist k => (kvsRbtreeExist n T (some k)).bind fun c => some (.status c, T)

/-- `set` gets a block that is not in use, `del` a key that some node has. -/
def Permits (T : Rbtree) (node : Ptr) : Call CString CString → Prop
  | .set _ _ => T.Free node
  | .del k => ∃ q, T.InTree q ∧ T.key q = k
  | _ => True

/-- A `del` takes no chunk of the pool out of the tree. -/
def Spared (T : Rbtree) : Call CString CString → Prop
  | .del k => T.Releases k
  | _ => True

/-- One permitted call, run to its end. -/
def Step (T : Rbtree) (c : Call CString CString) (r : Reply CharPtr) (T' : Rbtree) : Prop :=
  ∃ node, T.Permits node c ∧ Fuel.Returns (fun n => call n T node c) (r, T')

/-- The reply of a finite map. -/
def reply (m : CString → Option CString) : Call CString CString → Reply CharPtr
  | .set _ _ => .status 0
  | .get k => .value ((m k).elim .null .str)
  | .mod k _ => .status (if (m k).isSome then 0 else 1)
  | .del _ => .status 0
  | .exist k => .status (if (m k).isSome then 0 else 1)

theorem Maps.isSome_of_inTree {q : Ptr} (h : T.Maps m) (hq : T.InTree q) :
    (m (T.key q)).isSome := by
  obtain ⟨t, hT, hm⟩ := h
  obtain ⟨a, ha, rfl⟩ := List.mem_map.mp (hT.repr.inTree_iff.mp hq)
  obtain ⟨ctx, c, L, R, rfl⟩ := exists_plug_of_mem ha
  rw [(Repr.nodeAt (d := .left) hT.repr).key]
  have hs : (strings m a.key).isSome := hm.isSome (v := a.value) (List.mem_map.mpr ⟨a, ha, rfl⟩)
  rwa [strings, Option.isSome_map] at hs

/-- Each key of the map has a node. -/
theorem Maps.exists_inTree (h : T.Maps m) (hk : (m k).isSome) : ∃ q, T.InTree q ∧ T.key q = k := by
  obtain ⟨t, a, v, hT, -, ha, rfl, -⟩ | ⟨hno, -⟩ := h.search k
  · exact ⟨a.ptr, hT.repr.inTree_iff.mpr (List.mem_map_of_mem ha), hT.key ha⟩
  · simp [hno] at hk

theorem Maps.exists_takesOut {q : Ptr} (h : T.Maps m) (hq : T.InTree q) : ∃ y, T.TakesOut q y := by
  obtain ⟨t, hT, -⟩ := h
  obtain ⟨T', y, -, hout, -⟩ := hT.delete hq
  exact ⟨y, hout⟩

theorem returns_status {f : ℕ → Option (ℤ × Rbtree)} {c : ℤ} (h : Fuel.Returns f (c, T')) :
    Fuel.Returns (fun n => (f n).bind fun r => some (Reply.status (ρ := CharPtr) r.1, r.2))
      (.status c, T') :=
  h.bind (g := fun r _ => some (Reply.status r.1, r.2)) (.some _)

/-- A permitted call that takes no chunk of the pool out of the tree returns with the reply of the
map and keeps up with it. -/
theorem Maps.call {c : Call CString CString} (h : T.Maps m) (hp : T.Permits node c)
    (hc : T.Spared c) :
    ∃ T', Fuel.Returns (fun n => Rbtree.call n T node c) (reply m c, T') ∧
      T'.Maps (next m c) := by
  cases c with
  | set k v =>
    obtain ⟨T', hret, hm⟩ := h.set hp k v
    exact ⟨T', returns_status hret, hm⟩
  | get k => exact ⟨T, (h.get k).bind (g := fun v _ => some (Reply.value v, T)) (.some _), h⟩
  | mod k v =>
    obtain ⟨T', hret, hm⟩ := h.mod k v
    exact ⟨T', returns_status hret, hm⟩
  | del k =>
    obtain ⟨q, hq, rfl⟩ := hp
    obtain ⟨T', hm, hret, -⟩ := h.del (h.isSome_of_inTree hq)
    exact ⟨T', returns_status (hret hc), hm⟩
  | exist k => exact ⟨T, (h.exist k).bind (g := fun c _ => some (Reply.status c, T)) (.some _), h⟩

/-- Any other one does not come back. -/
theorem Maps.spared {c : Call CString CString} {r : Reply CharPtr × Rbtree} (h : T.Maps m)
    (hp : T.Permits node c) (hret : Fuel.Returns (fun n => Rbtree.call n T node c) r) :
    T.Spared c := by
  cases c with
  | del k =>
    obtain ⟨q, hq, rfl⟩ := hp
    obtain ⟨T', -, -, hback⟩ := h.del (h.isSome_of_inTree hq)
    obtain ⟨n, hn⟩ := hret
    obtain ⟨⟨code, T₁⟩, -, he⟩ := Option.bind_eq_some_iff.mp (hn n le_rfl)
    cases he
    refine hback (code, T₁) ⟨n, fun i hi => ?_⟩
    obtain ⟨⟨code', T₂⟩, hb, he'⟩ := Option.bind_eq_some_iff.mp (hn i hi)
    cases he'
    exact hb
  | _ => trivial

theorem Maps.step {c : Call CString CString} {r : Reply CharPtr} (h : T.Maps m) (hs : T.Step c r T') :
    r = reply m c ∧ T'.Maps (next m c) := by
  obtain ⟨node, hp, hret⟩ := hs
  obtain ⟨T'', hret', hm⟩ := h.call hp (h.spared hp hret)
  cases hret.unique hret'
  exact ⟨rfl, hm⟩

/-- The pool is the same behind a call. -/
theorem Step.inPool {c : Call CString CString} {r : Reply CharPtr} (hs : T.Step c r T') :
    T'.inPool = T.inPool := by
  obtain ⟨node, -, n, hn⟩ := hs
  have hcall := hn n le_rfl
  cases c with
  | set k v =>
    obtain ⟨x, hx, he⟩ := Option.bind_eq_some_iff.mp hcall
    obtain ⟨T₁, hins, hx⟩ := Option.bind_eq_some_iff.mp hx
    cases hx
    cases he
    have hpool := rbtreeInsert_inPool hins
    exact hpool
  | get k =>
    obtain ⟨x, -, he⟩ := Option.bind_eq_some_iff.mp hcall
    cases he
    rfl
  | exist k =>
    obtain ⟨x, -, he⟩ := Option.bind_eq_some_iff.mp hcall
    cases he
    rfl
  | mod k v =>
    obtain ⟨x, hx, he⟩ := Option.bind_eq_some_iff.mp hcall
    obtain ⟨p, -, hx⟩ := Option.bind_eq_some_iff.mp hx
    split_ifs at hx <;> cases hx <;> cases he <;> rfl
  | del k =>
    obtain ⟨x, hx, he⟩ := Option.bind_eq_some_iff.mp hcall
    obtain ⟨p, -, hx⟩ := Option.bind_eq_some_iff.mp hx
    split_ifs at hx
    · cases hx
      cases he
      rfl
    · obtain ⟨⟨T₁, y⟩, hdel, hx⟩ := Option.bind_eq_some_iff.mp hx
      dsimp only at hx
      split_ifs at hx
      cases hx
      cases he
      exact rbtreeDelete_inPool hdel

/-- Values can be set one after the other. -/
theorem Maps.exists_sets (h : T.Maps m) (kvs : List (CString × CString)) :
    ∃ T', Runs Step T (kvs.map fun kv => (.set kv.1 kv.2, .status 0)) T' ∧
      T'.Maps ((kvs.map fun kv => Call.set kv.1 kv.2).foldl next m) ∧ T'.inPool = T.inPool := by
  induction kvs generalizing T m with
  | nil => exact ⟨T, .nil T, h, rfl⟩
  | cons kv kvs ih =>
    obtain ⟨p, hp⟩ := h.exists_free
    obtain ⟨T₁, hret, hm₁⟩ := h.call (c := .set kv.1 kv.2) hp trivial
    have hstep : T.Step (.set kv.1 kv.2) (.status 0) T₁ := ⟨p, hp, hret⟩
    obtain ⟨T', hrun, hm', hpool⟩ := ih hm₁
    exact ⟨T', .cons hstep hrun, hm', hpool.trans hstep.inPool⟩

def letterA : CString := .read [97]
def letterB : CString := .read [98]
def letterC : CString := .read [99]

/-- Three keys in another order than that of their values. -/
def threeKeys : List (CString × CString) := [(letterB, letterA), (letterA, letterC), (letterC, letterB)]

theorem threeKeys_isSome (k : CString) :
    (((threeKeys.map fun kv => Call.set kv.1 kv.2).foldl next fun _ => none) k).isSome ↔
      k ∈ [letterA, letterB, letterC] := by
  have hmaps : (threeKeys.map fun kv => Call.set kv.1 kv.2).foldl next (fun _ => none) =
      Function.update (Function.update (Function.update (fun _ => none) letterB (some letterA))
        letterA (some letterC)) letterC (some letterB) := rfl
  simp only [hmaps, Function.update_apply, List.mem_cons, List.not_mem_nil, or_false]
  split_ifs with hC hA hB <;> simp [*]

theorem exists_threeKeys (M : Rbtree) : ∃ T,
    Runs Step (kvsRbtreeCreate M 1) (threeKeys.map fun kv => (.set kv.1 kv.2, .status 0)) T ∧
      T.Maps ((threeKeys.map fun kv => Call.set kv.1 kv.2).foldl next fun _ => none) ∧
      T.inPool = M.inPool :=
  (Maps.create (M := M) (p := 1) (by decide)).exists_sets threeKeys

end Rbtree
end KvStore
