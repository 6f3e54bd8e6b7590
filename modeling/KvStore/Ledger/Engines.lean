import KvStore.Ledger.Stock

/-! Without its pointers, a call of the ledger is the call of the engine with memory for all that
it asks for. -/
namespace KvStore
open KvsArray HashTable

/-- A call on the engines alone; a new node of the tree gets the block `node`. -/
def Engines.blockCall (e : Engines) (n : ℕ) (node : Ptr) : BlockCall → Option (ℤ × Engines)
  | .set .array key value =>
    (kvsArraySet e.array ⟨true, true⟩ key value).map fun r => (r.1, { e with array := r.2 })
  | .set .tree key value =>
    (kvsRbtreeSet n e.rbtree ⟨some node, true, true⟩ key value).map
      fun r => (r.1, { e with rbtree := r.2 })
  | .set .hash key value =>
    (kvsHashSet e.hash ⟨true, true, true⟩ key value).map fun r => (r.1, { e with hash := r.2 })
  | .mod .array key value =>
    (kvsArrayMod e.array true key value).map fun r => (r.1, { e with array := r.2 })
  | .mod .tree key value =>
    (kvsRbtreeMod n e.rbtree true key value).map fun r => (r.1, { e with rbtree := r.2 })
  | .mod .hash key value =>
    (kvsHashMod e.hash true key value).map fun r => (r.1, { e with hash := r.2 })
  | .del .array key => (kvsArrayDel e.array key).map fun r => (r.1, { e with array := r.2 })
  | .del .tree key => (kvsRbtreeDel n e.rbtree key).map fun r => (r.1, { e with rbtree := r.2 })
  | .del .hash key => (kvsHashDel e.hash key).map fun r => (r.1, { e with hash := r.2 })

namespace Ledger

variable {s s' : Ledger} {n : ℕ} {key value : Option CString} {code : ℤ}

theorem kvsArraySet_of_arraySet (hs : s.arraySet key value = some (code, s')) :
    kvsArraySet s.array ⟨true, true⟩ key value = some (code, s'.array) ∧
      s'.toEngines = { s.toEngines with array := s'.array } := by
  obtain ⟨inst, hlock, hs⟩ := Option.bind_eq_some_iff.mp hs
  unfold kvsArraySet
  rw [hlock, Option.bind_some]
  cases key with
  | none =>
    cases hs
    exact ⟨rfl, rfl⟩
  | some k =>
    cases value with
    | none =>
      cases hs
      exact ⟨rfl, rfl⟩
    | some v =>
      dsimp only at hs ⊢
      by_cases hfull : inst.total = kvsArraySize
      · rw [if_pos hfull] at hs ⊢
        cases hs
        exact ⟨rfl, rfl⟩
      rw [if_neg hfull] at hs ⊢
      obtain ⟨found, hscan, hs⟩ := Option.bind_eq_some_iff.mp hs
      rw [hscan, Option.bind_some]
      cases found with
      | some j =>
        cases hs
        exact ⟨rfl, rfl⟩
      | none =>
        obtain ⟨⟨kcopy, kvalue, stock⟩, -, hs⟩ := Option.bind_eq_some_iff.mp hs
        obtain ⟨hole, hhole, hs⟩ := Option.bind_eq_some_iff.mp hs
        simp only [Bool.not_true, Bool.false_eq_true, if_false, hhole, Option.bind_some]
        cases hole with
        | some i =>
          cases hs
          exact ⟨rfl, rfl⟩
        | none =>
          dsimp only at hs ⊢
          split_ifs at hs ⊢
          · cases hs
            exact ⟨rfl, rfl⟩
          · cases hs
            exact ⟨rfl, rfl⟩

theorem kvsArrayMod_of_arrayMod (hs : s.arrayMod key value = some (code, s')) :
    kvsArrayMod s.array true key value = some (code, s'.array) ∧
      s'.toEngines = { s.toEngines with array := s'.array } := by
  obtain ⟨inst, hlock, hs⟩ := Option.bind_eq_some_iff.mp hs
  unfold kvsArrayMod
  rw [hlock, Option.bind_some]
  cases key with
  | none =>
    cases hs
    exact ⟨rfl, rfl⟩
  | some k =>
    cases value with
    | none =>
      cases hs
      exact ⟨rfl, rfl⟩
    | some v =>
      dsimp only at hs ⊢
      by_cases hzero : inst.total = 0
      · rw [if_pos hzero] at hs ⊢
        cases hs
        exact ⟨rfl, rfl⟩
      rw [if_neg hzero] at hs ⊢
      obtain ⟨found, hscan, hs⟩ := Option.bind_eq_some_iff.mp hs
      rw [hscan, Option.bind_some]
      cases found with
      | none =>
        cases hs
        exact ⟨rfl, rfl⟩
      | some i =>
        dsimp only at hs ⊢
        by_cases hfreed : (inst.table i).value = .freed
        · rw [if_pos hfreed] at hs
          cases hs
        rw [if_neg hfreed] at hs ⊢
        obtain ⟨⟨kvalue, stock⟩, -, hs⟩ := Option.bind_eq_some_iff.mp hs
        cases hs
        exact ⟨rfl, rfl⟩

theorem kvsArrayDel_of_arrayDel (hs : s.arrayDel key = some (code, s')) :
    kvsArrayDel s.array key = some (code, s'.array) ∧
      s'.toEngines = { s.toEngines with array := s'.array } := by
  obtain ⟨inst, hlock, hs⟩ := Option.bind_eq_some_iff.mp hs
  unfold kvsArrayDel
  rw [hlock, Option.bind_some]
  cases key with
  | none =>
    cases hs
    exact ⟨rfl, rfl⟩
  | some k =>
    obtain ⟨found, hscan, hs⟩ := Option.bind_eq_some_iff.mp hs
    dsimp only
    rw [hscan, Option.bind_some]
    cases found with
    | none =>
      cases hs
      exact ⟨rfl, rfl⟩
    | some i =>
      dsimp only at hs ⊢
      split_ifs at hs ⊢
      · cases hs
        exact ⟨rfl, rfl⟩
      · cases hs
        exact ⟨rfl, rfl⟩

/-- The node gets the first of the free chunks. -/
theorem kvsRbtreeSet_of_rbtreeSet (hs : s.rbtreeSet n key value = some (code, s')) :
    kvsRbtreeSet n s.rbtree ⟨some (s.stock.chunks.headD null), true, true⟩ key value =
      some (code, s'.rbtree) ∧ s'.toEngines = { s.toEngines with rbtree := s'.rbtree } := by
  cases key with
  | none =>
    cases hs
    exact ⟨rfl, rfl⟩
  | some k =>
    cases value with
    | none =>
      cases hs
      exact ⟨rfl, rfl⟩
    | some v =>
      obtain ⟨⟨node, stock₁⟩, hnode, hs⟩ := Option.bind_eq_some_iff.mp hs
      obtain ⟨⟨kcopy, kvalue, stock⟩, -, hs⟩ := Option.bind_eq_some_iff.mp hs
      obtain ⟨T, hins, hs⟩ := Option.bind_eq_some_iff.mp hs
      cases hs
      rw [(Stock.kvsMalloc_eq hnode).1]
      refine ⟨?_, rfl⟩
      simp only [kvsRbtreeSet, List.headD_cons, Option.bind_some, Bool.not_true, Bool.false_eq_true,
        if_false, hins]

theorem kvsRbtreeMod_of_rbtreeMod (hs : s.rbtreeMod n key value = some (code, s')) :
    kvsRbtreeMod n s.rbtree true key value = some (code, s'.rbtree) ∧
      s'.toEngines = { s.toEngines with rbtree := s'.rbtree } := by
  cases key with
  | none =>
    cases hs
    exact ⟨rfl, rfl⟩
  | some k =>
    cases value with
    | none =>
      cases hs
      exact ⟨rfl, rfl⟩
    | some v =>
      obtain ⟨node, hsearch, hs⟩ := Option.bind_eq_some_iff.mp hs
      dsimp only [kvsRbtreeMod] at hs ⊢
      rw [hsearch, Option.bind_some]
      by_cases hnull : node = null
      · rw [if_pos hnull] at hs ⊢
        cases hs
        exact ⟨rfl, rfl⟩
      rw [if_neg hnull] at hs ⊢
      by_cases hnil : node = s.rbtree.nil
      · rw [if_pos hnil] at hs ⊢
        cases hs
        exact ⟨rfl, rfl⟩
      rw [if_neg hnil] at hs ⊢
      obtain ⟨⟨kvalue, stock⟩, -, hs⟩ := Option.bind_eq_some_iff.mp hs
      cases hs
      exact ⟨rfl, rfl⟩

theorem kvsRbtreeDel_of_rbtreeDel (hs : s.rbtreeDel n key = some (code, s')) :
    kvsRbtreeDel n s.rbtree key = some (code, s'.rbtree) ∧
      s'.toEngines = { s.toEngines with rbtree := s'.rbtree } := by
  cases key with
  | none =>
    cases hs
    exact ⟨rfl, rfl⟩
  | some k =>
    obtain ⟨node, hsearch, hs⟩ := Option.bind_eq_some_iff.mp hs
    dsimp only [kvsRbtreeDel] at hs ⊢
    rw [hsearch, Option.bind_some]
    by_cases hnull : node = null
    · rw [if_pos hnull] at hs ⊢
      cases hs
      exact ⟨rfl, rfl⟩
    rw [if_neg hnull] at hs ⊢
    obtain ⟨⟨T, cur⟩, hdel, hs⟩ := Option.bind_eq_some_iff.mp hs
    rw [hdel, Option.bind_some]
    dsimp only
    split_ifs at hs ⊢
    cases hs
    exact ⟨rfl, rfl⟩

theorem kvsHashSet_of_hashSet (hs : s.hashSet key value = some (code, s')) :
    kvsHashSet s.hash ⟨true, true, true⟩ key value = some (code, s'.hash) ∧
      s'.toEngines = { s.toEngines with hash := s'.hash } := by
  cases key with
  | none =>
    cases hs
    exact ⟨rfl, rfl⟩
  | some k =>
    cases value with
    | none =>
      cases hs
      exact ⟨rfl, rfl⟩
    | some v =>
      obtain ⟨⟨i, l⟩, hchain, hs⟩ := Option.bind_eq_some_iff.mp hs
      dsimp only [kvsHashSet] at hs ⊢
      rw [hchain, Option.bind_some]
      dsimp only
      cases hfound : locate k l with
      | some r =>
        rw [hfound] at hs
        cases hs
        exact ⟨rfl, rfl⟩
      | none =>
        rw [hfound] at hs
        obtain ⟨⟨node, stock₁⟩, -, hs⟩ := Option.bind_eq_some_iff.mp hs
        obtain ⟨⟨kcopy, kvalue, stock⟩, -, hs⟩ := Option.bind_eq_some_iff.mp hs
        cases hs
        exact ⟨rfl, rfl⟩

theorem kvsHashMod_of_hashMod (hs : s.hashMod key value = some (code, s')) :
    kvsHashMod s.hash true key value = some (code, s'.hash) ∧
      s'.toEngines = { s.toEngines with hash := s'.hash } := by
  cases key with
  | none =>
    cases hs
    exact ⟨rfl, rfl⟩
  | some k =>
    obtain ⟨⟨i, l⟩, hchain, hs⟩ := Option.bind_eq_some_iff.mp hs
    dsimp only [kvsHashMod] at hs ⊢
    rw [hchain, Option.bind_some]
    dsimp only
    cases hfound : locate k l with
    | none =>
      rw [hfound] at hs
      cases hs
      exact ⟨rfl, rfl⟩
    | some r =>
      rw [hfound] at hs
      obtain ⟨v, hv, hs⟩ := Option.bind_eq_some_iff.mp hs
      obtain ⟨b, -, hs⟩ := Option.bind_eq_some_iff.mp hs
      obtain ⟨⟨kvalue, stock⟩, -, hs⟩ := Option.bind_eq_some_iff.mp hs
      cases hs
      rw [hv]
      exact ⟨rfl, rfl⟩

theorem kvsHashDel_of_hashDel (hs : s.hashDel key = some (code, s')) :
    kvsHashDel s.hash key = some (code, s'.hash) ∧
      s'.toEngines = { s.toEngines with hash := s'.hash } := by
  cases key with
  | none =>
    cases hs
    exact ⟨rfl, rfl⟩
  | some k =>
    obtain ⟨⟨i, l⟩, hchain, hs⟩ := Option.bind_eq_some_iff.mp hs
    dsimp only [kvsHashDel] at hs ⊢
    rw [hchain, Option.bind_some]
    dsimp only
    cases l with
    | nil =>
      cases hs
      exact ⟨rfl, rfl⟩
    | cons head next =>
      dsimp only at hs ⊢
      by_cases hk : CString.strcmp head.key k = 0
      · rw [if_pos hk] at hs ⊢
        obtain ⟨b, -, hs⟩ := Option.bind_eq_some_iff.mp hs
        cases hs
        exact ⟨rfl, rfl⟩
      rw [if_neg hk] at hs ⊢
      cases hfound : locate k next with
      | none =>
        rw [hfound] at hs
        cases hs
        exact ⟨rfl, rfl⟩
      | some r =>
        rw [hfound] at hs
        obtain ⟨b, -, hs⟩ := Option.bind_eq_some_iff.mp hs
        cases hs
        exact ⟨rfl, rfl⟩

/-- The step of the ledger is the call on its engines. -/
theorem step_engines {c : BlockCall} (hs : s.step (n, c) = some (code, s')) :
    s.toEngines.blockCall n (s.stock.chunks.headD null) c = some (code, s'.toEngines) := by
  cases c with
  | set e key value =>
    cases e with
    | array =>
      obtain ⟨hcall, heng⟩ := kvsArraySet_of_arraySet hs
      rw [Engines.blockCall, hcall, Option.map_some, heng]
    | tree =>
      obtain ⟨hcall, heng⟩ := kvsRbtreeSet_of_rbtreeSet hs
      rw [Engines.blockCall, hcall, Option.map_some, heng]
    | hash =>
      obtain ⟨hcall, heng⟩ := kvsHashSet_of_hashSet hs
      rw [Engines.blockCall, hcall, Option.map_some, heng]
  | mod e key value =>
    cases e with
    | array =>
      obtain ⟨hcall, heng⟩ := kvsArrayMod_of_arrayMod hs
      rw [Engines.blockCall, hcall, Option.map_some, heng]
    | tree =>
      obtain ⟨hcall, heng⟩ := kvsRbtreeMod_of_rbtreeMod hs
      rw [Engines.blockCall, hcall, Option.map_some, heng]
    | hash =>
      obtain ⟨hcall, heng⟩ := kvsHashMod_of_hashMod hs
      rw [Engines.blockCall, hcall, Option.map_some, heng]
  | del e key =>
    cases e with
    | array =>
      obtain ⟨hcall, heng⟩ := kvsArrayDel_of_arrayDel hs
      rw [Engines.blockCall, hcall, Option.map_some, heng]
    | tree =>
      obtain ⟨hcall, heng⟩ := kvsRbtreeDel_of_rbtreeDel hs
      rw [Engines.blockCall, hcall, Option.map_some, heng]
    | hash =>
      obtain ⟨hcall, heng⟩ := kvsHashDel_of_hashDel hs
      rw [Engines.blockCall, hcall, Option.map_some, heng]

end Ledger
end KvStore
