import KvStore.Hash.Map
import KvStore.Ledger.Stock
import KvStore.Lib.Holdings
import KvStore.Rbtree.Absent

/-! Which blocks the engines hold, and what keeps the account of them. -/
namespace KvStore
open KvsArray HashTable Holdings RedBlack
open scoped List

/-- Who can hold a block: the tables of the array and of the hash engine, the sentinel of the tree,
a slot of the array, the nodes of the tree, a chain. -/
inductive Owner
  | tables
  | sentinel
  | tree
  | slot (i : ℕ)
  | bucket (i : Fin maxTableSize)
  deriving DecidableEq

def owners : List Owner :=
  .tables :: .sentinel :: .tree ::
    ((List.range kvsArraySize).map .slot ++ (List.finRange maxTableSize).map .bucket)

theorem owners_nodup : owners.Nodup := by
  have hslots : ((List.range kvsArraySize).map Owner.slot).Nodup :=
    List.nodup_range.map fun _ _ h => Owner.slot.inj h
  have hbuckets : ((List.finRange maxTableSize).map Owner.bucket).Nodup :=
    (List.nodup_finRange _).map fun _ _ h => Owner.bucket.inj h
  have hapart : List.Disjoint ((List.range kvsArraySize).map Owner.slot)
      ((List.finRange maxTableSize).map Owner.bucket) := by
    intro o hs hb
    obtain ⟨i, -, rfl⟩ := List.mem_map.mp hs
    obtain ⟨j, -, hj⟩ := List.mem_map.mp hb
    cases hj
  simp [owners, hslots.append hbuckets hapart]

theorem sentinel_mem : Owner.sentinel ∈ owners := List.mem_cons_of_mem _ List.mem_cons_self

theorem tree_mem : Owner.tree ∈ owners :=
  List.mem_cons_of_mem _ (List.mem_cons_of_mem _ List.mem_cons_self)

theorem slot_mem {i : ℕ} (hi : i < kvsArraySize) : Owner.slot i ∈ owners := by
  have hin : Owner.slot i ∈ (List.range kvsArraySize).map Owner.slot :=
    List.mem_map_of_mem (List.mem_range.mpr hi)
  simp [owners, hin]

theorem bucket_mem (i : Fin maxTableSize) : Owner.bucket i ∈ owners := by
  have hin : Owner.bucket i ∈ (List.finRange maxTableSize).map Owner.bucket :=
    List.mem_map_of_mem (List.mem_finRange i)
  simp [owners, hin]

/-- Two blocks for an item with a key. -/
def ArrayItem.blocks (x : ArrayItem) (key value : Ptr) : List Ptr :=
  match x.key with
  | .str _ => [key, value]
  | _ => []

/-- Three blocks for a node of a chain. -/
def chainBlocks (bs : List NodeBlocks) : List Ptr := bs.flatMap fun b => [b.node, b.key, b.value]

namespace Ledger

section Blocks

variable (s : Ledger)

def slotBlocks (i : ℕ) : List Ptr := (s.array.table i).blocks (s.slotKey i) (s.slotValue i)

/-- Three blocks for a node of the tree. -/
def treeBlocks (nodes : List Ptr) : List Ptr :=
  nodes.flatMap fun p => [p, s.nodeKey p, s.nodeValue p]

/-- What an owner holds, when these are the nodes of the tree. -/
def holds (nodes : List Ptr) : Owner → List Ptr
  | .tables => [s.arrayTable, s.hashTable]
  | .sentinel => [s.rbtree.nil]
  | .tree => s.treeBlocks nodes
  | .slot i => s.slotBlocks i
  | .bucket i => chainBlocks (s.chain i)

end Blocks

variable {s : Ledger} {all given taken : List Ptr} {t t' : RBTree Cell} {o : Owner} {p : Ptr}

/-- The account of the blocks when the tree is `t`. `all` are the blocks there are. -/
structure Settled (s : Ledger) (all : List Ptr) (t : RBTree Cell) : Prop where
  distinct : (null :: all).Nodup
  tree : s.rbtree.Holds t
  shared : Shared owners (s.holds (ptrs t)) s.stock.out
  conserved : s.stock.chunks ++ s.stock.out ~ all
  strays : s.stock.strays = []
  /-- No slot behind `total` has a key. -/
  slots : ∀ i k, (s.array.table i).key = .str k → i < s.array.total
  total : s.array.total ≤ kvsArraySize
  chains : ∀ i, (s.chain i).length = (s.hash.chain i).length

theorem Settled.nodup (h : s.Settled all t) : (s.stock.chunks ++ s.stock.out).Nodup :=
  h.conserved.nodup_iff.mpr (List.nodup_cons.mp h.distinct).2

theorem Settled.null_notMem (h : s.Settled all t) : null ∉ s.stock.chunks ++ s.stock.out :=
  fun hin => (List.nodup_cons.mp h.distinct).1 (h.conserved.mem_iff.mp hin)

/-- What an owner holds can be released. -/
theorem Settled.release (h : s.Settled all t) (ho : o ∈ owners) (ps : List Ptr) {rest : List Ptr}
    (hps : s.holds (ptrs t) o ~ ps ++ rest) :
    s.stock.Trades (ps.foldl Stock.kvsFree s.stock) ps [] := by
  have hall := flatMap_perm ho (s.holds (ptrs t))
  have hout : s.stock.out ~ ps ++ (rest ++ (owners.erase o).flatMap (s.holds (ptrs t))) := by
    rw [← List.append_assoc]
    exact (h.shared.trans hall).trans (hps.append_right _)
  refine .kvsFree hout fun hnull => h.null_notMem ?_
  exact List.mem_append_right _ (hout.mem_iff.mpr (List.mem_append_left _ hnull))

/-- A call settles its trade with the owner whose blocks it changes. -/
theorem Settled.trade (h : s.Settled all t) (s' : Ledger) (ho : o ∈ owners) (htree : s'.rbtree.Holds t')
    (hstock : s.stock.Trades s'.stock given taken)
    (hothers : ∀ o' ∈ owners, o' ≠ o → s'.holds (ptrs t') o' = s.holds (ptrs t) o')
    (hnet : s.holds (ptrs t) o ++ taken ~ s'.holds (ptrs t') o ++ given)
    (hslots : ∀ i k, (s'.array.table i).key = .str k → i < s'.array.total)
    (htotal : s'.array.total ≤ kvsArraySize)
    (hchains : ∀ i, (s'.chain i).length = (s'.hash.chain i).length) : s'.Settled all t' where
  distinct := h.distinct
  tree := htree
  shared := by
    apply h.shared.change owners_nodup ho hothers
    have hsum : s'.stock.out ++ s.holds (ptrs t) o ++ given ~
        s.stock.out ++ s'.holds (ptrs t') o ++ given :=
      calc s'.stock.out ++ s.holds (ptrs t) o ++ given
        _ = s'.stock.out ++ (s.holds (ptrs t) o ++ given) := List.append_assoc ..
        _ ~ s'.stock.out ++ (given ++ s.holds (ptrs t) o) := List.perm_append_comm.append_left _
        _ = s'.stock.out ++ given ++ s.holds (ptrs t) o := (List.append_assoc ..).symm
        _ ~ s.stock.out ++ taken ++ s.holds (ptrs t) o := hstock.out.append_right _
        _ = s.stock.out ++ (taken ++ s.holds (ptrs t) o) := List.append_assoc ..
        _ ~ s.stock.out ++ (s.holds (ptrs t) o ++ taken) := List.perm_append_comm.append_left _
        _ ~ s.stock.out ++ (s'.holds (ptrs t') o ++ given) := hnet.append_left _
        _ = s.stock.out ++ s'.holds (ptrs t') o ++ given := (List.append_assoc ..).symm
    exact (List.perm_append_right_iff _).mp hsum
  conserved := hstock.conserved.trans h.conserved
  strays := hstock.strays.trans h.strays
  slots := hslots
  total := htotal
  chains := hchains

end Ledger
end KvStore
