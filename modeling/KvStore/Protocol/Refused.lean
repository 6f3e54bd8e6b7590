import KvStore.Protocol.Replies
import KvStore.Rbtree.Reach

/-! The calls that ask `kvs_malloc` for memory, and what a call leaves behind that is refused some of
it: which of them change no value, and which lose one. -/
namespace KvStore
open KvsArray HashTable

section Lookups

variable {T : Rbtree} {L : Ptr → Prop} {x z : Ptr} {a : KvsArray} {k : CString} {i : ℕ}

/-- A search compares with the keys of the nodes it reaches only. -/
theorem Rbtree.Closed.searchFrom_setKey (h : T.Closed L) (hz : ¬ L z) (k' : CString) (n : ℕ)
    (hx : L x) : rbtreeSearchFrom (T.setKey z k') k n x = rbtreeSearchFrom T k n x := by
  induction n generalizing x with
  | zero => rfl
  | succ n ih =>
    have hxz : x ≠ z := fun he => hz (he ▸ hx)
    simp only [rbtreeSearchFrom, Rbtree.setKey_nil, Rbtree.setKey_key, Rbtree.setKey_child,
      Function.update_of_ne hxz, ih (h.child .left x hx), ih (h.child .right x hx)]

theorem rbtreeSearchFrom_setValue (T : Rbtree) (z : Ptr) (v : CharPtr) (k : CString) (n : ℕ)
    (x : Ptr) : rbtreeSearchFrom (T.setValue z v) k n x = rbtreeSearchFrom T k n x := by
  induction n generalizing x with
  | zero => rfl
  | succ n ih =>
    simp only [rbtreeSearchFrom, Rbtree.setValue_nil, Rbtree.setValue_key, Rbtree.setValue_child, ih]

/-- The scan reads keys only. -/
theorem KvsArray.scan_congr {b : Bool} {t t' : ℕ → ArrayItem} (h : ∀ j, (t' j).key = (t j).key)
    (k : CString) (i n : ℕ) : scan b t' k i n = scan b t k i n := by
  induction n generalizing i with
  | zero => rfl
  | succ n ih => simp only [scan, h, ih]

theorem HashTable.locate_append {A B : List HashNode} {node : HashNode} {l : List HashNode}
    (h : locate k l = some (A, node, B)) (v : CharPtr) :
    locate k (A ++ { node with value := v } :: B) = some (A, { node with value := v }, B) := by
  induction l generalizing A with
  | nil => cases h
  | cons y l ih =>
    rw [locate] at h
    by_cases hy : CString.strcmp y.key k = 0
    · rw [if_pos hy] at h
      cases h
      exact if_pos hy
    · rw [if_neg hy, Option.map_eq_some_iff] at h
      obtain ⟨⟨A', x', B'⟩, hl, he⟩ := h
      cases he
      rw [List.cons_append, locate, if_neg hy, ih hl]
      rfl

end Lookups

namespace Engines

/-- What the walk of a call for a key comes to: the value of the key, nothing when it is absent, or
no answer at all. -/
def find (s : Engines) (n : ℕ) : Engine → CString → Option (Option CharPtr)
  | .array, key => if s.array.locked then none
    else (scan true s.array.table key 0 s.array.total).map fun found =>
      found.map fun i => (s.array.table i).value
  | .tree, key => (rbtreeSearch n s.rbtree key).map fun node =>
    if node = null ∨ node = s.rbtree.nil then none else some (s.rbtree.value node)
  | .hash, key => (s.hash.chainOf key).map fun r => (locate key r.2).map fun x => x.2.1.value

def get (s : Engines) (n : ℕ) : Engine → CString → Option CharPtr
  | .array, key => (kvsArrayGet s.array (some key)).map (·.1)
  | .tree, key => kvsRbtreeGet n s.rbtree (some key)
  | .hash, key => kvsHashGet s.hash (some key)

theorem get_eq (s : Engines) (n : ℕ) (e : Engine) (key : CString) :
    s.get n e key = (s.find n e key).map fun v => v.getD .null := by
  cases e with
  | array =>
    by_cases hlock : s.array.locked = true
    · simp [get, find, kvsArrayGet, lock, hlock]
    simp only [get, find, kvsArrayGet, lock, if_neg hlock, Option.bind_some]
    cases scan true s.array.table key 0 s.array.total with
    | none => rfl
    | some found => cases found <;> rfl
  | tree =>
    simp only [get, find, kvsRbtreeGet]
    cases rbtreeSearch n s.rbtree key with
    | none => rfl
    | some node =>
      by_cases hnull : node = null
      · simp [hnull]
      · by_cases hnil : node = s.rbtree.nil
        · simp [hnil]
        · simp [hnull, hnil]
  | hash =>
    simp only [get, find, kvsHashGet]
    cases s.hash.chainOf key with
    | none => rfl
    | some r =>
      simp only [Option.bind_some, Option.map_some]
      cases locate key r.2 <;> rfl

/-- Every key that is found has a string as its value. -/
def Undamaged (s : Engines) (e : Engine) : Prop :=
  ∀ n key v, s.find n e key = some (some v) → ∃ t, v = .str t

end Engines

/-- The calls that ask for memory, each with the answers of `kvs_malloc`. -/
inductive MemoryCall
  | arraySet (m : ArrayAlloc) (key value : CString)
  | arrayMod (room : Bool) (key value : CString)
  | rbtreeSet (m : NodeAlloc) (key value : CString)
  | rbtreeMod (room : Bool) (key value : CString)
  | hashSet (m : HashAlloc) (key value : CString)
  | hashMod (room : Bool) (key value : CString)

namespace MemoryCall

def engine : MemoryCall → Engine
  | arraySet _ _ _ | arrayMod _ _ _ => .array
  | rbtreeSet _ _ _ | rbtreeMod _ _ _ => .tree
  | hashSet _ _ _ | hashMod _ _ _ => .hash

def run (n : ℕ) (s : Engines) : MemoryCall → Option (ℤ × Engines)
  | arraySet m key value =>
    (kvsArraySet s.array m (some key) (some value)).map fun r => (r.1, { s with array := r.2 })
  | arrayMod room key value =>
    (kvsArrayMod s.array room (some key) (some value)).map fun r => (r.1, { s with array := r.2 })
  | rbtreeSet m key value =>
    (kvsRbtreeSet n s.rbtree m (some key) (some value)).map fun r => (r.1, { s with rbtree := r.2 })
  | rbtreeMod room key value =>
    (kvsRbtreeMod n s.rbtree room (some key) (some value)).map fun r => (r.1, { s with rbtree := r.2 })
  | hashSet m key value =>
    (kvsHashSet s.hash m (some key) (some value)).map fun r => (r.1, { s with hash := r.2 })
  | hashMod room key value =>
    (kvsHashMod s.hash room (some key) (some value)).map fun r => (r.1, { s with hash := r.2 })

/-- `kvs_malloc` returns no block that the tree has a pointer to. -/
def Fresh (s : Engines) : MemoryCall → Prop
  | rbtreeSet m _ _ => ∀ p, m.node = some p → ¬ s.rbtree.Reaches p
  | _ => True

/-- The call comes to a request for memory that is refused. -/
def Refused (n : ℕ) (s : Engines) : MemoryCall → Prop
  | arraySet m key _ => s.array.total ≠ kvsArraySize ∧ s.find n .array key = some none ∧
    (m.key = false ∨ m.value = false)
  | arrayMod room key _ => (∃ v, s.find n .array key = some (some v)) ∧ room = false
  | rbtreeSet m _ _ => m.node = none ∨ m.key = false ∨ m.value = false
  | rbtreeMod room key _ => (∃ v, s.find n .tree key = some (some v)) ∧ room = false
  | hashSet m key _ => s.find n .hash key = some none ∧
    (m.node = false ∨ m.key = false ∨ m.value = false)
  | hashMod room key _ => (∃ v, s.find n .hash key = some (some v)) ∧ room = false

/-- The call returns a negative code, and behind it `get` returns for every key what it returned
before, a string for every key that was there. -/
def Clean (n : ℕ) (s : Engines) (c : MemoryCall) : Prop :=
  ∃ code s', c.run n s = some (code, s') ∧ code < 0 ∧
    (∀ j e key, s'.get j e key = s.get j e key) ∧
    ∀ j key v, s.find j c.engine key = some (some v) → ∃ t, s'.get j c.engine key = some (.str t)

/-- The calls of `set` that check the answer, in a state without freed or `NULL` values. -/
def Spared (s : Engines) : MemoryCall → Prop
  | arraySet _ _ _ => s.Undamaged .array
  | rbtreeSet m _ _ => m.node ≠ none ∧ s.Undamaged .tree
  | _ => False

variable {n : ℕ} {s s' : Engines} {c : MemoryCall}

/-- A call that keeps every answer of `get` is clean where no value was lost before. -/
theorem clean_iff {code : ℤ} (hrun : c.run n s = some (code, s')) (hcode : code < 0)
    (hget : ∀ j e key, s'.get j e key = s.get j e key) : c.Clean n s ↔ s.Undamaged c.engine := by
  constructor
  · rintro ⟨code', s'', hrun', -, -, hlive⟩ j key v hv
    rw [hrun] at hrun'
    cases hrun'
    obtain ⟨t, ht⟩ := hlive j key v hv
    rw [hget, Engines.get_eq, hv] at ht
    exact ⟨t, Option.some.inj ht⟩
  · intro hs
    refine ⟨code, s', hrun, hcode, hget, ?_⟩
    intro j key v hv
    obtain ⟨t, rfl⟩ := hs j key v hv
    refine ⟨t, ?_⟩
    rw [hget, Engines.get_eq, hv]
    rfl

/-- A call that leaves another value than a string under a key that was there is not clean. -/
theorem not_clean {code : ℤ} {key : CString} {v w : CharPtr} (hrun : c.run n s = some (code, s'))
    (hv : s.find n c.engine key = some (some v)) (hw : s'.find n c.engine key = some (some w))
    (hlost : ∀ t, w ≠ .str t) : ¬ c.Clean n s := by
  rintro ⟨code', s'', hrun', -, -, hlive⟩
  rw [hrun] at hrun'
  cases hrun'
  obtain ⟨t, ht⟩ := hlive n key v hv
  rw [Engines.get_eq, hw] at ht
  exact hlost t (Option.some.inj ht)

theorem array_of_find {key : CString} {v : Option CharPtr}
    (h : s.find n .array key = some v) : s.array.locked = false ∧
      ∃ found, scan true s.array.table key 0 s.array.total = some found ∧
        v = found.map fun i => (s.array.table i).value := by
  cases hlock : s.array.locked with
  | true =>
    rw [Engines.find, if_pos hlock] at h
    cases h
  | false =>
    rw [Engines.find, if_neg (by simp [hlock]), Option.map_eq_some_iff] at h
    obtain ⟨found, hfound, rfl⟩ := h
    exact ⟨rfl, found, hfound, rfl⟩

theorem arraySet_refused {m : ArrayAlloc} {key value : CString}
    (h : (arraySet m key value).Refused n s) : (arraySet m key value).run n s = some (-2, s) := by
  obtain ⟨hfull, hfind, hm⟩ := h
  obtain ⟨hlock, found, hscan, hfound⟩ := array_of_find hfind
  obtain rfl := Option.map_eq_none_iff.mp hfound.symm
  have hunlock : ({ s.array with locked := true } : KvsArray).unlock = s.array := by
    rw [KvsArray.unlock, ← hlock]
  simp only [run, kvsArraySet, lock, hlock, Bool.false_eq_true, if_false, Option.bind_some, if_neg hfull,
    hscan, hunlock]
  by_cases hkey : m.key = false
  · rw [if_pos (by simp [hkey])]
    rfl
  · rw [if_neg (by simpa using hkey), if_pos (by simp [hm.resolve_left hkey])]
    rfl

theorem arrayMod_refused {room : Bool} {key value : CString}
    (h : (arrayMod room key value).Refused n s) : ¬ (arrayMod room key value).Clean n s := by
  obtain ⟨⟨v, hv⟩, rfl⟩ := h
  obtain ⟨hlock, found, hscan, hfound⟩ := array_of_find hv
  obtain ⟨i, rfl, -⟩ := Option.map_eq_some_iff.mp hfound.symm
  have htotal : s.array.total ≠ 0 := by
    intro h0
    rw [h0] at hscan
    cases hscan
  by_cases hfreed : (s.array.table i).value = .freed
  · rintro ⟨code, s', hrun, -⟩
    simp [run, kvsArrayMod, lock, hlock, htotal, hscan, hfreed] at hrun
  have hrun : (arrayMod false key value).run n s = some (-2, { s with
      array := s.array.setItem i { s.array.table i with value := .freed } }) := by
    simp [run, kvsArrayMod, lock, hlock, htotal, hscan, hfreed, setItem, unlock]
  have hscan' : scan true (s.array.setItem i { s.array.table i with value := .freed }).table key 0
      s.array.total = some (some i) := by
    rw [← hscan]
    apply scan_congr
    intro j
    by_cases hj : j = i
    · simp [setItem, hj]
    · simp [setItem, hj]
  refine not_clean (w := .freed) hrun hv ?_ fun t ht => by cases ht
  show (if s.array.locked = true then none else _) = _
  rw [if_neg (by simp [hlock])]
  show (scan true _ key 0 s.array.total).map _ = _
  rw [hscan']
  simp [setItem]

theorem rbtreeSet_refused {m : NodeAlloc} {p : Ptr} (hnode : m.node = some p)
    (hp : ¬ s.rbtree.Reaches p) (hm : m.key = false ∨ m.value = false) (key value : CString) :
    ∃ s', (rbtreeSet m key value).run n s = some (-2, s') ∧
      ∀ j e k, s'.get j e k = s.get j e k := by
  simp only [run, kvsRbtreeSet, hnode, Option.bind_some]
  by_cases hkey : m.key = false
  · refine ⟨s, ?_, fun _ _ _ => rfl⟩
    rw [if_pos (by simp [hkey])]
    rfl
  · rw [if_neg (by simpa using hkey), if_pos (by simp [hm.resolve_left hkey])]
    refine ⟨_, rfl, ?_⟩
    intro j e k
    cases e with
    | array => rfl
    | hash => rfl
    | tree =>
      have hclosed := Rbtree.closed_reaches s.rbtree
      have hsearch := hclosed.searchFrom_setKey (k := k) hp key j hclosed.root
      show ((rbtreeSearchFrom (s.rbtree.setKey p key) k j s.rbtree.root).bind _) = _
      rw [hsearch]
      rfl

theorem rbtreeMod_refused {room : Bool} {key value : CString}
    (h : (rbtreeMod room key value).Refused n s) : ¬ (rbtreeMod room key value).Clean n s := by
  obtain ⟨⟨v, hv⟩, rfl⟩ := h
  obtain ⟨node, hsearch, hnode⟩ := Option.map_eq_some_iff.mp hv
  by_cases hnone : node = null ∨ node = s.rbtree.nil
  · rw [if_pos hnone] at hnode
    cases hnode
  have hrun : (rbtreeMod false key value).run n s =
      some (-2, { s with rbtree := s.rbtree.setValue node .null }) := by
    obtain ⟨hnull, hnil⟩ := not_or.mp hnone
    simp [run, kvsRbtreeMod, hsearch, hnull, hnil]
  refine not_clean (w := .null) hrun hv ?_ fun t ht => by cases ht
  have hsearch' : rbtreeSearch n (s.rbtree.setValue node .null) key = some node :=
    (rbtreeSearchFrom_setValue s.rbtree node .null key n _).trans hsearch
  show ((rbtreeSearch n (s.rbtree.setValue node .null) key).map _) = _
  rw [hsearch', Option.map_some, Rbtree.setValue_nil, if_neg hnone, Rbtree.setValue_value,
    Function.update_self]

theorem hashSet_refused {m : HashAlloc} {key value : CString}
    (h : (hashSet m key value).Refused n s) : ¬ (hashSet m key value).Clean n s := by
  obtain ⟨hfind, hm⟩ := h
  obtain ⟨⟨i, chain⟩, hchain, hnone⟩ := Option.map_eq_some_iff.mp hfind
  have hcreate : createNode m key value = none := by
    unfold createNode
    obtain hm | hm | hm := hm
    · simp [hm]
    · simp [hm]
    · simp [hm]
  rintro ⟨code, s', hrun, -⟩
  simp [run, kvsHashSet, hchain, Option.map_eq_none_iff.mp hnone, hcreate] at hrun

theorem hashMod_refused {room : Bool} {key value : CString}
    (h : (hashMod room key value).Refused n s) : ¬ (hashMod room key value).Clean n s := by
  obtain ⟨⟨v, hv⟩, rfl⟩ := h
  obtain ⟨⟨i, chain⟩, hchain, hsome⟩ := Option.map_eq_some_iff.mp hv
  obtain ⟨⟨A, node, B⟩, hlocate, -⟩ := Option.map_eq_some_iff.mp hsome
  have hrun : (hashMod false key value).run n s = some (-2, { s with
      hash := s.hash.setChain i (A ++ { node with value := .freed } :: B) }) := by
    simp [run, kvsHashMod, hchain, hlocate]
  refine not_clean (w := .freed) hrun hv ?_ fun t ht => by cases ht
  have hchain' : (s.hash.setChain i (A ++ { node with value := .freed } :: B)).chainOf key =
      some (i, A ++ { node with value := .freed } :: B) := by
    obtain ⟨i', hslot, hi'⟩ := Option.bind_eq_some_iff.mp hchain
    obtain ⟨chain', -, he⟩ := Option.map_eq_some_iff.mp hi'
    cases he
    simp [chainOf, hslot, setChain]
  show ((chainOf _ key).map _) = _
  rw [hchain', Option.map_some]
  dsimp only
  rw [locate_append hlocate]
  rfl

end MemoryCall

/-- In every state a call that is refused memory leaves the store as it was exactly when it is a `set`
of an engine that checks the answer and no value was lost before. -/
theorem refused_call_clean_iff (n : ℕ) (s : Engines) (c : MemoryCall) (hfresh : c.Fresh s) :
    (c.Refused n s → c.Clean n s) ↔ (c.Refused n s → c.Spared s) := by
  apply imp_congr_right
  intro h
  cases c with
  | arraySet m key value =>
    exact MemoryCall.clean_iff (MemoryCall.arraySet_refused h) (by decide) fun _ _ _ => rfl
  | arrayMod room key value => exact iff_of_false (MemoryCall.arrayMod_refused h) id
  | rbtreeSet m key value =>
    cases hnode : m.node with
    | none =>
      refine iff_of_false ?_ fun hs => hs.1 hnode
      rintro ⟨code, s', hrun, -⟩
      simp [MemoryCall.run, kvsRbtreeSet, hnode] at hrun
    | some p =>
      have hm := h.resolve_left (by simp [hnode])
      obtain ⟨s', hrun, hget⟩ := MemoryCall.rbtreeSet_refused (n := n) hnode (hfresh p hnode) hm
        key value
      rw [MemoryCall.clean_iff hrun (by decide) hget]
      exact (and_iff_right (by simp [hnode])).symm
  | rbtreeMod room key value => exact iff_of_false (MemoryCall.rbtreeMod_refused h) id
  | hashSet m key value => exact iff_of_false (MemoryCall.hashSet_refused h) id
  | hashMod room key value => exact iff_of_false (MemoryCall.hashMod_refused h) id

/-- An array with one key is refused memory for the value of another. -/
theorem refused_call_clean_iff_second : ∃ s,
    (MemoryCall.arraySet ⟨true, true⟩ (.read [97]) (.read [98])).run 0 startStore.toEngines =
      some (0, s) ∧
    s.find 0 .array (.read [97]) = some (some (.str (.read [98]))) ∧
    (MemoryCall.arraySet ⟨true, false⟩ (.read [99]) (.read [98])).Refused 0 s ∧
    (MemoryCall.arraySet ⟨true, false⟩ (.read [99]) (.read [98])).Clean 0 s := by
  refine ⟨_, rfl, rfl, ⟨by decide, rfl, .inr rfl⟩, ?_⟩
  refine (refused_call_clean_iff 0 _ (.arraySet ⟨true, false⟩ (.read [99]) (.read [98])) trivial).mpr
    ?_ ⟨by decide, rfl, .inr rfl⟩
  rintro - n key v hv
  obtain ⟨-, found, hscan, hfound⟩ := MemoryCall.array_of_find hv
  change (if CString.strcmp (.read [97]) key = 0 then some (some 0) else some none) = some found
    at hscan
  split_ifs at hscan
  · cases hscan
    cases hfound
    exact ⟨_, rfl⟩
  · cases hscan
    cases hfound

/-- `kvs_hash_mod` has released the value of the key before it is refused memory for the new one. -/
theorem kvsHashMod_loses_value : ∃ s s',
    (MemoryCall.hashSet ⟨true, true, true⟩ (.read [97]) (.read [98])).run 0 startStore.toEngines =
      some (0, s) ∧
    (MemoryCall.hashMod false (.read [97]) (.read [99])).run 0 s = some (-2, s') ∧
    s.get 0 .hash (.read [97]) = some (.str (.read [98])) ∧
    s'.get 0 .hash (.read [97]) = some .freed ∧
    ¬ ((MemoryCall.hashMod false (.read [97]) (.read [99])).Refused 0 s →
      (MemoryCall.hashMod false (.read [97]) (.read [99])).Clean 0 s) := by
  refine ⟨_, _, rfl, rfl, rfl, rfl, fun h => ?_⟩
  have hclean := h ⟨⟨.str (.read [98]), rfl⟩, rfl⟩
  exact MemoryCall.hashMod_refused ⟨⟨.str (.read [98]), rfl⟩, rfl⟩ hclean

end KvStore
