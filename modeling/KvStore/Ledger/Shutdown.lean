import KvStore.Ledger.Account
import KvStore.Ledger.Engines
import KvStore.Rbtree.Destroy

/-! The blocks that `dest_kvengine` gives back. It takes the tables, the sentinel and the nodes of the
chains; the copies of all keys and values, and the nodes of the tree, stay. -/
namespace KvStore
open HashTable Holdings RedBlack
open scoped List

section Slots

variable {h h' : HashTable} {key value : Option CString} {code : ℤ} {k : CString}
  {idx : Fin maxTableSize} {l l' : List HashNode}

/-- The same slots hold a pointer. -/
def HashTable.SameSlots (h h' : HashTable) : Prop :=
  ∀ i, (h'.nodes i).isSome = (h.nodes i).isSome

theorem HashTable.SameSlots.setChain (hchain : h.chainOf k = some (idx, l)) :
    h.SameSlots (h.setChain idx l') := by
  intro i
  obtain ⟨j, -, hj⟩ := Option.bind_eq_some_iff.mp hchain
  obtain ⟨l₁, hl₁, he⟩ := Option.map_eq_some_iff.mp hj
  cases he
  by_cases hi : i = idx
  · subst hi
    simp [HashTable.setChain, hl₁]
  · simp [HashTable.setChain, Function.update_of_ne hi]

theorem kvsHashSet_sameSlots {m : HashAlloc} (hs : kvsHashSet h m key value = some (code, h')) :
    h.SameSlots h' := by
  cases key with
  | none =>
    cases hs
    exact fun _ => rfl
  | some k =>
    cases value with
    | none =>
      cases hs
      exact fun _ => rfl
    | some v =>
      obtain ⟨⟨idx, chain⟩, hchain, hs⟩ := Option.bind_eq_some_iff.mp hs
      cases hfound : locate k chain with
      | some r =>
        simp only [hfound] at hs
        cases hs
        exact fun _ => rfl
      | none =>
        simp only [hfound] at hs
        obtain ⟨node, -, hs⟩ := Option.bind_eq_some_iff.mp hs
        cases hs
        exact .setChain hchain

theorem kvsHashMod_sameSlots {room : Bool} (hs : kvsHashMod h room key value = some (code, h')) :
    h.SameSlots h' := by
  cases key with
  | none =>
    cases hs
    exact fun _ => rfl
  | some k =>
    obtain ⟨⟨idx, chain⟩, hchain, hs⟩ := Option.bind_eq_some_iff.mp hs
    cases hfound : locate k chain with
    | none =>
      simp only [hfound] at hs
      cases hs
      exact fun _ => rfl
    | some r =>
      simp only [hfound] at hs
      obtain ⟨v, -, hs⟩ := Option.bind_eq_some_iff.mp hs
      split_ifs at hs
      · cases hs
        exact .setChain hchain
      · cases hs
        exact .setChain hchain

theorem kvsHashDel_sameSlots (hs : kvsHashDel h key = some (code, h')) : h.SameSlots h' := by
  cases key with
  | none =>
    cases hs
    exact fun _ => rfl
  | some k =>
    obtain ⟨⟨idx, chain⟩, hchain, hs⟩ := Option.bind_eq_some_iff.mp hs
    cases chain with
    | nil =>
      cases hs
      exact fun _ => rfl
    | cons head next =>
      dsimp only at hs
      split_ifs at hs
      · cases hs
        exact .setChain hchain
      · cases hfound : locate k next with
        | none =>
          simp only [hfound] at hs
          cases hs
          exact fun _ => rfl
        | some r =>
          simp only [hfound] at hs
          cases hs
          exact .setChain hchain

end Slots

namespace Ledger

section Model

variable (s : Ledger)

/-- `kvs_array_destory`. -/
def arrayDestory : Ledger := { s with stock := s.stock.kvsFree s.arrayTable }

/-- `kvs_rbtree_destory`. The minimum that its loop would remove has no left child, so that no entry
changes its node. -/
def rbtreeDestory (n : ℕ) : Option Ledger :=
  (kvsRbtreeDestory n s.rbtree).map fun r =>
    { s with rbtree := r.1, stock := r.2.foldl Stock.kvsFree s.stock }

/-- The loop of `kvs_hash_destory` over its slots: the nodes of each chain go, one after the other. -/
def slotsDestory : List (Fin maxTableSize) → Stock → Option Stock
  | [], stock => some stock
  | i :: is, stock =>
    (s.hash.nodes i).bind fun _ =>
    slotsDestory is ((s.chain i).foldl (fun stock b => stock.kvsFree b.node) stock)

/-- `kvs_hash_destory`. -/
def hashDestory : Option Ledger :=
  (s.slotsDestory (List.finRange maxTableSize) s.stock).map fun stock =>
    { s with
      hash := { s.hash with nodes := fun _ => some [] }
      chain := fun _ => []
      stock := stock.kvsFree s.hashTable }

/-- `dest_kvengine`, before the pool itself goes. The skip list has no block of the pool. -/
def destKvengine (n : ℕ) : Option Ledger :=
  (s.arrayDestory.rbtreeDestory n).bind hashDestory

end Model

variable {s s' s₀ : Ledger} {all : List Ptr} {t : RBTree Cell} {stock : Stock}
  {is : List (Fin maxTableSize)} {c : ℕ × BlockCall} {code : ℤ} {n : ℕ}

theorem sameSlots_of_eq {e : Engines} (h : s'.toEngines = e) (he : e.hash = s.hash) :
    s.hash.SameSlots s'.hash := by
  subst h
  rw [he]
  exact fun _ => rfl

/-- No call makes a slot of the table one that was never written, or the other way round. -/
theorem step_sameSlots (hs : s.step c = some (code, s')) : s.hash.SameSlots s'.hash := by
  obtain ⟨n, c⟩ := c
  cases c with
  | set e key value =>
    cases e with
    | array => exact sameSlots_of_eq (kvsArraySet_of_arraySet hs).2 rfl
    | tree => exact sameSlots_of_eq (kvsRbtreeSet_of_rbtreeSet hs).2 rfl
    | hash => exact kvsHashSet_sameSlots (kvsHashSet_of_hashSet hs).1
  | mod e key value =>
    cases e with
    | array => exact sameSlots_of_eq (kvsArrayMod_of_arrayMod hs).2 rfl
    | tree => exact sameSlots_of_eq (kvsRbtreeMod_of_rbtreeMod hs).2 rfl
    | hash => exact kvsHashMod_sameSlots (kvsHashMod_of_hashMod hs).1
  | del e key =>
    cases e with
    | array => exact sameSlots_of_eq (kvsArrayDel_of_arrayDel hs).2 rfl
    | tree => exact sameSlots_of_eq (kvsRbtreeDel_of_rbtreeDel hs).2 rfl
    | hash => exact kvsHashDel_sameSlots (kvsHashDel_of_hashDel hs).1

/-- The nodes of the chain at `i`. -/
def chainNodes (s : Ledger) (i : Fin maxTableSize) : List Ptr := (s.chain i).map NodeBlocks.node

/-- The loop comes back when every slot holds a pointer, and then it has released the nodes. -/
theorem slotsDestory_eq (h : ∀ i ∈ is, (s.hash.nodes i).isSome) :
    s.slotsDestory is stock = some ((is.flatMap s.chainNodes).foldl Stock.kvsFree stock) := by
  induction is generalizing stock with
  | nil => rfl
  | cons i is ih =>
    obtain ⟨l, hl⟩ := Option.isSome_iff_exists.mp (h i List.mem_cons_self)
    rw [slotsDestory, hl, Option.bind_some, ih fun j hj => h j (List.mem_cons_of_mem i hj),
      List.flatMap_cons, List.foldl_append, chainNodes, List.foldl_map]

theorem slotsDestory_isSome (h : (s.slotsDestory is stock).isSome) :
    ∀ i ∈ is, (s.hash.nodes i).isSome := by
  induction is generalizing stock with
  | nil => exact fun i hi => absurd hi List.not_mem_nil
  | cons j is ih =>
    rw [slotsDestory] at h
    cases hj : s.hash.nodes j with
    | none =>
      rw [hj] at h
      cases h
    | some l =>
      rw [hj, Option.bind_some] at h
      intro i hi
      obtain rfl | hi := List.mem_cons.mp hi
      · rw [hj]
        rfl
      · exact ih h i hi

/-- The copies of the keys and values in the chain at `i`. -/
def chainEntries (s : Ledger) (i : Fin maxTableSize) : List Ptr :=
  (s.chain i).flatMap fun b => [b.key, b.value]

/-- What `dest_kvengine` gives back. -/
def released (s : Ledger) : List Ptr :=
  [s.arrayTable, s.rbtree.nil] ++ (List.finRange maxTableSize).flatMap s.chainNodes ++ [s.hashTable]

/-- What it leaves: the nodes of the tree, and the copies of all keys and values. -/
def leftover (s : Ledger) (nodes : List Ptr) : List Ptr :=
  s.treeBlocks nodes ++ ((List.range kvsArraySize).flatMap s.slotBlocks ++
    (List.finRange maxTableSize).flatMap s.chainEntries)

theorem chainBlocks_perm (s : Ledger) (i : Fin maxTableSize) :
    chainBlocks (s.chain i) ~ s.chainNodes i ++ s.chainEntries i :=
  (List.map_append_flatMap_perm (s.chain i) NodeBlocks.node fun b => [b.key, b.value]).symm

theorem holds_perm (s : Ledger) (nodes : List Ptr) :
    owners.flatMap (s.holds nodes) ~ s.released ++ s.leftover nodes := by
  have hbuckets : (List.finRange maxTableSize).flatMap (fun i => chainBlocks (s.chain i)) ~
      (List.finRange maxTableSize).flatMap s.chainNodes ++
        (List.finRange maxTableSize).flatMap s.chainEntries :=
    (List.Perm.flatMap_left _ fun i _ => s.chainBlocks_perm i).trans
      (List.flatMap_append_perm _ s.chainNodes s.chainEntries).symm
  simp only [owners, List.flatMap_cons, List.flatMap_append, List.flatMap_map]
  simp only [holds, released, leftover]
  rw [List.perm_iff_count] at hbuckets ⊢
  intro p
  have hp := hbuckets p
  simp only [List.count_append, List.count_cons, List.count_nil] at hp ⊢
  have hslots : ((List.range kvsArraySize).flatMap fun i => s.slotBlocks i) =
    (List.range kvsArraySize).flatMap s.slotBlocks := rfl
  rw [hp, hslots]
  omega

/-- What the walks release, one after the other. -/
theorem destKvengine_eq (hroot : s.rbtree.root ≠ null) (hslots : ∀ i, (s.hash.nodes i).isSome) :
    s.destKvengine (n + 1) = some { s with
      hash := { s.hash with nodes := fun _ => some [] }
      chain := fun _ => []
      stock := s.released.foldl Stock.kvsFree s.stock } := by
  have htree : kvsRbtreeDestory (n + 1) s.rbtree = some (s.rbtree, [s.rbtree.nil]) := by
    rw [kvsRbtreeDestory, destoryLoop, if_neg hroot]
    rfl
  have hloop : ∀ stock, slotsDestory
      { s with stock := stock } (List.finRange maxTableSize) stock =
        some (((List.finRange maxTableSize).flatMap s.chainNodes).foldl Stock.kvsFree stock) :=
    fun stock => slotsDestory_eq fun i _ => hslots i
  simp only [destKvengine, rbtreeDestory, arrayDestory, htree, Option.map_some, Option.bind_some,
    hashDestory, hloop, released, List.foldl_append, List.foldl_cons, List.foldl_nil]

/-- The call comes back with what it leaves outstanding. -/
theorem Settled.destKvengine (h : s.Settled all t) (hslots : ∀ i, (s.hash.nodes i).isSome) :
    ∃ s', s.destKvengine (n + 1) = some s' ∧ s.stock.Trades s'.stock s.released [] ∧
      s'.stock.out ~ s.leftover (ptrs t) := by
  have hout := h.shared.trans (s.holds_perm (ptrs t))
  have hnull : null ∉ s.released := fun hin =>
    h.null_notMem (List.mem_append_right _ (hout.mem_iff.mpr (List.mem_append_left _ hin)))
  have htrades := Stock.Trades.kvsFree hout hnull
  have hrun : s.destKvengine (n + 1) = _ := destKvengine_eq h.tree.repr.root_ne_null hslots
  generalize s.released.foldl Stock.kvsFree s.stock = stock at hrun htrades
  refine ⟨_, hrun, htrades, ?_⟩
  have hrest := htrades.out
  rw [List.append_nil] at hrest
  have hswap := hrest.trans (hout.trans List.perm_append_comm)
  exact (List.perm_append_right_iff _).mp hswap

/-- It does not come back when it meets a slot that was never written. -/
theorem destKvengine_slots (h : s.destKvengine n = some s') : ∀ i, (s.hash.nodes i).isSome := by
  obtain ⟨s₁, htree, h⟩ := Option.bind_eq_some_iff.mp h
  obtain ⟨r, -, rfl⟩ := Option.map_eq_some_iff.mp htree
  obtain ⟨stock, hloop, -⟩ := Option.map_eq_some_iff.mp h
  have hslots := slotsDestory_isSome (Option.isSome_of_eq_some hloop)
  exact fun i => hslots i (List.mem_finRange i)

/-- What a run from the start leads to. -/
theorem Started.finish (h : s₀.Started all) {calls : List (ℕ × BlockCall)}
    (hC : Guarded.Allowed Ledger.step Spares s₀ calls)
    (hrun : Guarded.finish Ledger.step s₀ calls = some s) :
    (∃ t, s.Settled all t) ∧ s₀.hash.SameSlots s.hash := by
  apply hC.finish (J := fun s => (∃ t, s.Settled all t) ∧ s₀.hash.SameSlots s.hash) ?_ ?_ hrun
  · rintro s c r s' ⟨⟨t, ht⟩, hsame⟩ hc hs
    exact ⟨ht.step hc hs, fun i => (step_sameSlots hs i).trans (hsame i)⟩
  · exact ⟨⟨.nil, h.settled⟩, fun _ => rfl⟩

/-- After any run that spares the account, `dest_kvengine` comes back exactly when every slot of the hash
table was `NULL` at the start. It releases only blocks that are outstanding, each once, and leaves the
nodes of the tree and the copies of all keys and values outstanding, nothing else. -/
theorem destKvengine_leftover (h : s₀.Started all) (calls : List (ℕ × BlockCall))
    (hC : Guarded.Allowed Ledger.step Spares s₀ calls)
    (hrun : Guarded.finish Ledger.step s₀ calls = some s) :
    ((∃ n s', s.destKvengine n = some s') ↔ ∀ i, (s₀.hash.nodes i).isSome) ∧
    ∀ n s', s.destKvengine n = some s' → s.stock.Trades s'.stock s.released [] ∧
      ∃ nodes : List Ptr, nodes.Nodup ∧ (∀ p, p ∈ nodes ↔ s.rbtree.InTree p) ∧
        s'.stock.out ~ s.leftover nodes := by
  obtain ⟨⟨t, ht⟩, hsame⟩ := h.finish hC hrun
  refine ⟨⟨?_, ?_⟩, ?_⟩
  · rintro ⟨n, s', hs'⟩ i
    rw [← hsame]
    exact destKvengine_slots hs' i
  · intro hslots
    obtain ⟨s', hs', -⟩ := ht.destKvengine (n := 0) fun i => (hsame i).trans (hslots i)
    exact ⟨_, s', hs'⟩
  · intro n s' hs'
    cases n with
    | zero => cases hs'
    | succ n =>
      obtain ⟨s₁, hs₁, htrades, hleft⟩ := ht.destKvengine (n := n) (destKvengine_slots hs')
      obtain rfl := Option.some.inj (hs₁.symm.trans hs')
      have hnodup := (List.nodup_cons.mp (List.nodup_cons.mp ht.tree.repr.nodup).2).2
      exact ⟨htrades, ptrs t, hnodup, fun p => ht.tree.repr.inTree_iff.symm, hleft⟩

/-- One entry in the array and one in the hash table. -/
theorem destKvengine_leftover_two : ∃ (s s' : Ledger) (n : ℕ) (nodes : List Ptr),
    Guarded.finish Ledger.step startLedger
      [(0, .set .array (some (.read [97])) (some (.read [49]))),
        (0, .set .hash (some (.read [97])) (some (.read [49])))] = some s ∧
    s.destKvengine n = some s' ∧ s'.stock.out ~ s.leftover nodes := by
  obtain ⟨s, hrun⟩ : ∃ s, Guarded.finish Ledger.step startLedger
      [(0, .set .array (some (.read [97])) (some (.read [49]))),
        (0, .set .hash (some (.read [97])) (some (.read [49])))] = some s := ⟨_, rfl⟩
  have hspares : Guarded.Allowed Ledger.step Spares startLedger
      [(0, .set .array (some (.read [97])) (some (.read [49]))),
        (0, .set .hash (some (.read [97])) (some (.read [49])))] :=
    ⟨trivial, fun _ _ _ => ⟨trivial, fun _ _ _ => trivial⟩⟩
  obtain ⟨hback, hleft⟩ := destKvengine_leftover startLedger_started _ hspares hrun
  obtain ⟨n, s', hs'⟩ := hback.mpr fun _ => rfl
  obtain ⟨-, nodes, -, -, hout⟩ := hleft n s' hs'
  exact ⟨s, s', n, nodes, hrun, hs', hout⟩

end Ledger
end KvStore
