import KvStore.Ledger.Chains
import KvStore.Ledger.Nodes
import KvStore.Ledger.Slots
import KvStore.Lib.Guarded

/-! The account of the allocator: which calls leave every outstanding block with the entry, table
or sentinel that holds it. -/
namespace KvStore
open HashTable Holdings RedBlack
open scoped List

def ArrayItem.isLive (x : ArrayItem) : Bool :=
  match x.key with
  | .str _ => true
  | _ => false

namespace Ledger

variable {s s' : Ledger} {all nodes nodes' : List Ptr} {t : RBTree Cell} {c : ℕ × BlockCall}
  {n : ℕ} {code : ℤ} {k : CString}

/-- Two blocks for each entry of the array, three for each of the tree and of the hash engine, the
tables and the sentinel. -/
def inUse (s : Ledger) (nodes : List Ptr) : ℕ :=
  3 + 2 * (List.range kvsArraySize).countP (fun i => (s.array.table i).isLive) +
    3 * nodes.length + 3 * s.hash.entries.length

/-- The blocks `all` are divided into free chunks and outstanding blocks, each outstanding block
is held once, and as many chunks are free as the entries at hand leave. Nothing went to `free`. -/
structure Accounted (s : Ledger) (all : List Ptr) : Prop where
  distinct : (s.stock.chunks ++ s.stock.out).Nodup
  conserved : s.stock.chunks ++ s.stock.out ~ all
  chains : ∀ i, (s.chain i).length = (s.hash.chain i).length
  strays : s.stock.strays = []
  held : ∃ nodes : List Ptr, nodes.Nodup ∧ (∀ p, p ∈ nodes ↔ s.rbtree.InTree p) ∧
    Shared owners (s.holds nodes) s.stock.out ∧
    s.stock.chunks.length + s.inUse nodes = all.length

theorem length_slotBlocks (is : List ℕ) :
    (is.flatMap s.slotBlocks).length = 2 * is.countP fun i => (s.array.table i).isLive := by
  induction is with
  | nil => rfl
  | cons i is ih =>
    rw [List.flatMap_cons, List.length_append, ih, List.countP_cons, slotBlocks,
      ArrayItem.blocks, ArrayItem.isLive]
    cases (s.array.table i).key with
    | str k =>
      simp
      omega
    | null => simp
    | uninit => simp
    | freed => simp

/-- The blocks that are held, in numbers. -/
theorem length_holds (hchains : ∀ i, (s.chain i).length = (s.hash.chain i).length) :
    (owners.flatMap (s.holds nodes)).length = s.inUse nodes := by
  have hslots := s.length_slotBlocks (List.range kvsArraySize)
  have htree : (s.treeBlocks nodes).length = 3 * nodes.length :=
    length_flatMap_const fun _ _ => rfl
  have hchain : ∀ bs : List NodeBlocks, (chainBlocks bs).length = 3 * bs.length :=
    fun _ => length_flatMap_const fun _ _ => rfl
  have hhash : ((List.finRange maxTableSize).flatMap fun i => chainBlocks (s.chain i)).length =
      3 * s.hash.entries.length := by
    rw [HashTable.entries]
    apply length_flatMap_mul
    intro i _
    rw [hchain, hchains]
  simp only [owners, List.flatMap_cons, List.flatMap_append, List.flatMap_map, List.length_append]
  simp only [holds, hhash, htree, inUse]
  rw [show ((List.range kvsArraySize).flatMap fun i => s.slotBlocks i).length = _ from hslots]
  simp only [List.length_cons, List.length_nil]
  omega

theorem Settled.accounted (h : s.Settled all t) : s.Accounted all where
  distinct := h.nodup
  conserved := h.conserved
  chains := h.chains
  strays := h.strays
  held := by
    have hnodup := (List.nodup_cons.mp (List.nodup_cons.mp h.tree.repr.nodup).2).2
    refine ⟨ptrs t, hnodup, fun p => h.tree.repr.inTree_iff.symm, h.shared, ?_⟩
    rw [← length_holds h.chains, ← h.shared.length_eq, ← List.length_append]
    exact h.conserved.length_eq

/-- The free chunks, counted with the nodes that the tree has. -/
theorem Accounted.length_chunks (h : s.Accounted all) (ht : s.rbtree.Holds t) :
    s.stock.chunks.length + s.inUse (ptrs t) = all.length := by
  obtain ⟨nodes, hnodup, hmem, -, hlen⟩ := h.held
  have hptrs := (List.nodup_cons.mp (List.nodup_cons.mp ht.repr.nodup).2).2
  have hperm : nodes ~ ptrs t := by
    apply (List.perm_ext_iff_of_nodup hnodup hptrs).mpr
    intro p
    rw [hmem, ht.repr.inTree_iff]
  rw [← hlen, inUse, inUse, hperm.length_eq]

/-- A `set` on the tree is for a key that no node has, a `del` on the tree for no key at all, and a
`del` on the hash engine not for the key at the head of a chain. -/
def Spares (s : Ledger) (c : ℕ × BlockCall) : Prop :=
  match c.2 with
  | .set .tree (some k) (some _) => ¬ s.rbtree.HasKey k
  | .del .tree (some _) => False
  | .del .hash (some k) =>
    ∀ i head next, s.hash.chainOf k = some (i, head :: next) → head.key ≠ k
  | _ => True

theorem Settled.step (h : s.Settled all t) (hC : s.Spares c) (hs : s.step c = some (code, s')) :
    ∃ t', s'.Settled all t' := by
  obtain ⟨n, c⟩ := c
  cases c with
  | set e key value =>
    cases e with
    | array => exact ⟨t, h.arraySet hs⟩
    | tree =>
      cases key with
      | none =>
        cases hs
        exact ⟨t, h⟩
      | some k =>
        cases value with
        | none =>
          cases hs
          exact ⟨t, h⟩
        | some v =>
          obtain ⟨-, hset⟩ | ⟨hk, -⟩ := h.rbtreeSet hs
          · exact hset
          · exact absurd hk hC
    | hash => exact ⟨t, h.hashSet hs⟩
  | mod e key value =>
    cases e with
    | array => exact ⟨t, h.arrayMod hs⟩
    | tree => exact h.rbtreeMod hs
    | hash => exact ⟨t, h.hashMod hs⟩
  | del e key =>
    cases e with
    | array => exact ⟨t, h.arrayDel hs⟩
    | tree =>
      cases key with
      | none =>
        cases hs
        exact ⟨t, h⟩
      | some k => exact hC.elim
    | hash =>
      apply Exists.intro t
      apply h.hashDel hs
      rintro k i head next rfl hchain
      exact hC i head next hchain

/-- The chain at slot `i` loses its first node. -/
theorem length_entries_setChain {h : HashTable} {i : Fin maxTableSize} {head : HashNode}
    {next : List HashNode} (hchain : h.chain i = head :: next) :
    h.entries.length = (h.setChain i next).entries.length + 1 := by
  obtain ⟨A, B, hAB, -⟩ := KeyValue.exists_flatMap_update h.chain i
  have hbefore : h.entries = A ++ head :: next ++ B := by
    rw [← hAB, ← hchain, Function.update_eq_self]
    rfl
  have hafter : (h.setChain i next).entries = A ++ next ++ B := by
    rw [HashTable.entries, chain_setChain, hAB]
  rw [hbefore, hafter]
  simp
  omega

/-- The deletion of the first node of a chain leaves its key and its value outstanding. -/
theorem Settled.hashDel_head (h : s.Settled all t) {i : Fin maxTableSize} {head : HashNode}
    {next : List HashNode} (hchain : s.hash.chainOf k = some (i, head :: next))
    (hk : head.key = k) (hs : s.hashDel (some k) = some (code, s')) : ¬ s'.Accounted all := by
  intro ha
  have hlist := chain_of_chainOf hchain
  obtain ⟨⟨i', l⟩, hchain', hs⟩ := Option.bind_eq_some_iff.mp hs
  rw [hchain] at hchain'
  cases hchain'
  dsimp only at hs
  rw [if_pos ((CString.strcmp_eq_zero _ _).mpr hk)] at hs
  obtain ⟨b, hb, hs⟩ := Option.bind_eq_some_iff.mp hs
  cases hs
  have hout := chainBlocks_eraseIdx hb
  have hnull : b.node ≠ null := by
    have hmem : b.node ∈ s.stock.out := by
      apply h.shared.mem (bucket_mem i)
      exact hout.mem_iff.mpr (by simp)
    exact fun he => h.null_notMem (List.mem_append_right _ (he ▸ hmem))
  have hbefore := h.accounted.length_chunks h.tree
  have hafter := ha.length_chunks h.tree
  have hentries := length_entries_setChain hlist
  simp only [Stock.kvsFree, if_neg hnull, inUse, List.length_cons] at hbefore hafter
  change _ + (3 + _ + _ + 3 * (s.hash.setChain i next).entries.length) = _ at hafter
  rw [hentries] at hbefore
  change _ + (3 + 2 * (List.range kvsArraySize).countP (fun i => (s.array.table i).isLive) + _ + _) =
    _ at hafter
  omega

/-- The node of a deleted key goes to `free`, and the sentinel when no node has the key. -/
theorem Settled.rbtreeDel_strays (h : s.Settled all t)
    (hs : s.rbtreeDel n (some k) = some (code, s')) : s'.stock.strays ≠ [] := by
  obtain ⟨node, hsearch, hs⟩ := Option.bind_eq_some_iff.mp hs
  have hret := (Rbtree.rbtreeSearchFrom_growing s.rbtree k s.rbtree.root).returns hsearch
  have hnull : node ≠ null := by
    obtain ⟨a, -, -, hnull, -, hfound⟩ | ⟨-, hnull, hfound⟩ := h.tree.search k
    · rwa [hret.unique hfound]
    · rwa [hret.unique hfound]
  dsimp only at hs
  rw [if_neg hnull] at hs
  obtain ⟨⟨T, cur⟩, -, hs⟩ := Option.bind_eq_some_iff.mp hs
  split_ifs at hs
  cases hs
  exact List.cons_ne_nil _ _

/-- A call that keeps the account is made where it can. -/
theorem Settled.spares (h : s.Settled all t) (hs : s.step c = some (code, s'))
    (ha : s'.Accounted all) : s.Spares c := by
  obtain ⟨n, c⟩ := c
  cases c with
  | set e key value =>
    cases e with
    | array => trivial
    | tree =>
      cases key with
      | none => trivial
      | some k =>
        cases value with
        | none => trivial
        | some v =>
          obtain ⟨hk, -⟩ | ⟨-, ht, harray, hhash, hchunks⟩ := h.rbtreeSet hs
          · exact hk
          · -- the same entries with three chunks fewer
            have hbefore := h.accounted.length_chunks h.tree
            have hafter := ha.length_chunks ht
            rw [inUse, harray, hhash] at hafter
            rw [inUse] at hbefore
            omega
    | hash => trivial
  | mod e key value => trivial
  | del e key =>
    cases e with
    | array => trivial
    | tree =>
      cases key with
      | none => trivial
      | some k => exact absurd ha.strays (h.rbtreeDel_strays hs)
    | hash =>
      cases key with
      | none => trivial
      | some k =>
        intro i head next hchain hk
        exact h.hashDel_head hchain hk hs ha

/-- The engines as `init_kvengine` creates them over the free chunks `pool`. The requests for the
tables are too large for a chunk, and `malloc` serves them. -/
structure Started (s : Ledger) (all : List Ptr) : Prop where
  array : s.array = kvsArrayCreate
  rbtree : ∃ M, s.rbtree = kvsRbtreeCreate M s.rbtree.nil
  hash : ∃ nodes, s.hash = kvsHashCreate nodes ∧ ∀ i l, nodes i = some l → l = []
  chains : ∀ i, s.chain i = []
  stock : ∃ pool stock, Stock.kvsMalloc ⟨pool, [s.arrayTable], []⟩ sizeofRbtreeNode =
      some (s.rbtree.nil, stock) ∧ s.stock = { stock with out := s.hashTable :: stock.out } ∧
    all = s.arrayTable :: s.hashTable :: pool
  distinct : (null :: all).Nodup

theorem Started.settled (h : s.Started all) : s.Settled all .nil := by
  obtain ⟨M, hM⟩ := h.rbtree
  obtain ⟨nodes, hhash, hnodes⟩ := h.hash
  obtain ⟨pool, stock, hmalloc, hstock, hall⟩ := h.stock
  obtain ⟨hpool, -, he⟩ := Stock.kvsMalloc_eq hmalloc
  dsimp only at hpool he
  have hout : s.stock.out = [s.hashTable, s.rbtree.nil, s.arrayTable] := by rw [hstock, he]
  have hchunks : s.stock.chunks = stock.chunks := by rw [hstock]
  have hmem : s.rbtree.nil ∈ all := by
    rw [hall, hpool]
    simp
  have hnull : s.rbtree.nil ≠ null := fun hnil => (List.nodup_cons.mp h.distinct).1 (hnil ▸ hmem)
  have hkey : ∀ i k, (s.array.table i).key ≠ .str k := by
    intro i k
    rw [h.array]
    exact nofun
  have hslots : (List.range kvsArraySize).flatMap s.slotBlocks = [] := by
    apply List.flatMap_eq_nil_iff.mpr
    intro i _
    exact slotBlocks_of_ne (hkey i)
  have hbuckets : (List.finRange maxTableSize).flatMap (fun i => chainBlocks (s.chain i)) = [] := by
    apply List.flatMap_eq_nil_iff.mpr
    intro i _
    rw [h.chains]
    rfl
  refine ⟨h.distinct, hM ▸ .create hnull, ?_, ?_, ?_, fun i k hk => absurd hk (hkey i k), ?_, ?_⟩
  · have hholds : owners.flatMap (s.holds (ptrs .nil)) =
        [s.arrayTable, s.hashTable] ++ ([s.rbtree.nil] ++ ([] ++
          ((List.range kvsArraySize).flatMap s.slotBlocks ++
            (List.finRange maxTableSize).flatMap fun i => chainBlocks (s.chain i)))) := by
      simp only [owners, List.flatMap_cons, List.flatMap_append, List.flatMap_map]
      rfl
    rw [Shared, hholds, hslots, hbuckets, hout]
    calc [s.hashTable, s.rbtree.nil, s.arrayTable]
      _ ~ [s.arrayTable, s.hashTable, s.rbtree.nil] := List.perm_append_singleton s.arrayTable [s.hashTable, s.rbtree.nil]
  · rw [hall, hpool, hout, hchunks]
    calc stock.chunks ++ [s.hashTable, s.rbtree.nil, s.arrayTable]
      _ ~ [s.hashTable, s.rbtree.nil, s.arrayTable] ++ stock.chunks := List.perm_append_comm
      _ ~ s.arrayTable :: s.hashTable :: s.rbtree.nil :: stock.chunks :=
        (List.perm_append_singleton s.arrayTable [s.hashTable, s.rbtree.nil]).append_right _
  · rw [hstock, he]
  · rw [h.array]
    exact Nat.zero_le _
  · intro i
    rw [h.chains, HashTable.chain, hhash]
    change 0 = ((nodes i).getD []).length
    cases hi : nodes i with
    | none => rfl
    | some l =>
      rw [hnodes i l hi]
      rfl

/-- From the start on every call that comes back leaves the blocks accounted for, exactly when
every call that comes back is one that spares the account. -/
theorem accounted_iff_spares (h : s.Started all) (calls : List (ℕ × BlockCall)) :
    s.Accounted all ∧
    (Guarded.Whenever Ledger.step (fun _ _ _ s' => s'.Accounted all) s calls ↔
      Guarded.Whenever Ledger.step (fun s c _ _ => s.Spares c) s calls) := by
  have hstart : ∃ t, s.Settled all t := ⟨.nil, h.settled⟩
  refine ⟨h.settled.accounted, ?_, ?_⟩
  · apply Guarded.Whenever.imp (J := fun s => ∃ t, s.Settled all t) ?_ hstart
    rintro s c r s' ⟨t, ht⟩ hs ha
    have hC := ht.spares hs ha
    exact ⟨hC, ht.step hC hs⟩
  · apply Guarded.Whenever.imp (J := fun s => ∃ t, s.Settled all t) ?_ hstart
    rintro s c r s' ⟨t, ht⟩ hs hC
    obtain ⟨t', ht'⟩ := ht.step hC hs
    exact ⟨ht'.accounted, t', ht'⟩

/-- The engines over a pool of seven chunks. -/
def startLedger : Ledger where
  array := kvsArrayCreate
  rbtree := kvsRbtreeCreate Rbtree.blank 3
  hash := kvsHashCreate fun _ => some []
  arrayTable := 1
  hashTable := 2
  slotKey _ := null
  slotValue _ := null
  nodeKey _ := null
  nodeValue _ := null
  chain _ := []
  stock := ⟨[4, 5, 6, 7, 8, 9], [2, 3, 1], []⟩

theorem startLedger_started : startLedger.Started [1, 2, 3, 4, 5, 6, 7, 8, 9] where
  array := rfl
  rbtree := ⟨Rbtree.blank, rfl⟩
  hash := ⟨fun _ => some [], rfl, fun i l hl => (Option.some.inj hl).symm⟩
  chains _ := rfl
  stock := ⟨[3, 4, 5, 6, 7, 8, 9], _, rfl, rfl, rfl⟩
  distinct := by decide

/-- An entry of the array that comes and goes, and one of the hash engine. -/
theorem accounted_iff_spares_set_del_set :
    Guarded.Whenever Ledger.step (fun _ _ _ s' => s'.Accounted [1, 2, 3, 4, 5, 6, 7, 8, 9])
      startLedger [(0, .set .array (some (.read [97])) (some (.read [49]))),
        (0, .del .array (some (.read [97]))),
        (0, .set .hash (some (.read [97])) (some (.read [49])))] := by
  apply (accounted_iff_spares startLedger_started _).2.mpr
  exact fun _ _ _ => ⟨trivial, fun _ _ _ => ⟨trivial, fun _ _ _ => ⟨trivial, trivial⟩⟩⟩

/-- A key that was set and deleted takes two chunks of the pool with it. -/
theorem hashDel_leaks :
    (∃ s', Guarded.finish Ledger.step startLedger
        [(0, .set .hash (some (.read [97])) (some (.read [49]))),
          (0, .del .hash (some (.read [97])))] = some s' ∧
      s'.stock.chunks.length + 2 = startLedger.stock.chunks.length) ∧
    ¬ ∀ s all calls, Started s all →
      Guarded.Whenever Ledger.step (fun _ _ _ s' => s'.Accounted all) s calls := by
  refine ⟨⟨_, rfl, rfl⟩, fun hall => ?_⟩
  have hrun := hall _ _ [(0, .set .hash (some (.read [97])) (some (.read [49]))),
    (0, .del .hash (some (.read [97])))] startLedger_started
  obtain ⟨t, hset⟩ := startLedger_started.settled.step
    (c := (0, .set .hash (some (.read [97])) (some (.read [49])))) trivial rfl
  obtain ⟨-, hrest⟩ := hrun 0 _ rfl
  obtain ⟨ha, -⟩ := hrest 0 _ rfl
  have hspares := hset.spares (c := (0, .del .hash (some (.read [97])))) rfl ha
  exact hspares _ ⟨.read [97], .str (.read [49])⟩ [] rfl rfl

end Ledger
end KvStore
