import KvStore.Ledger.Settled
import KvStore.Rbtree.Growing

/-! The calls of the tree engine and the account of the blocks. A `set` keeps it for a key that no
node has, a `mod` always. -/
namespace KvStore
open RedBlack RedBlack.RBTree Holdings Fuel
open scoped List

namespace Ledger

variable {s s' : Ledger} {all given taken : List Ptr} {t t' : RBTree Cell} {stock : Stock}
  {key value : Option CString} {code : ℤ} {T : Rbtree} {p kcopy kvalue : Ptr} {n : ℕ}
  {k v : CString}

/-- A call that writes the pointers of one node. -/
theorem Settled.setTree (h : s.Settled all t) (htree : T.Holds t') (hnil : T.nil = s.rbtree.nil)
    (hstock : s.stock.Trades stock given taken)
    (hnet : s.treeBlocks (ptrs t) ++ taken ~
      (s.fillNode p kcopy kvalue).treeBlocks (ptrs t') ++ given) :
    { s.fillNode p kcopy kvalue with rbtree := T, stock := stock }.Settled all t' := by
  apply h.trade { s.fillNode p kcopy kvalue with rbtree := T, stock := stock } tree_mem htree hstock
    ?_ hnet h.slots h.total h.chains
  rintro (_ | _ | _ | i | i) _ hne
  case sentinel =>
    change [T.nil] = _
    rw [hnil]
    rfl
  case tree => exact absurd rfl hne
  all_goals rfl

/-- The blocks of one node apart from those of the others, which its pointers do not touch. -/
theorem treeBlocks_fillNode {nodes rest : List Ptr} (hperm : nodes ~ p :: rest) (hp : p ∉ rest)
    (kcopy kvalue : Ptr) :
    (s.fillNode p kcopy kvalue).treeBlocks nodes ~ [p, kcopy, kvalue] ++ s.treeBlocks rest := by
  have hsplit := hperm.flatMap_right fun q =>
    [q, (s.fillNode p kcopy kvalue).nodeKey q, (s.fillNode p kcopy kvalue).nodeValue q]
  have hrest : (s.fillNode p kcopy kvalue).treeBlocks rest = s.treeBlocks rest := by
    apply List.flatMap_congr
    intro q hq
    have hqp : q ≠ p := fun he => hp (he ▸ hq)
    simp [fillNode, hqp]
  rw [List.flatMap_cons] at hsplit
  simp only [fillNode, Function.update_self] at hsplit
  rw [← hrest]
  exact hsplit

theorem treeBlocks_perm {nodes rest : List Ptr} (hperm : nodes ~ p :: rest) :
    s.treeBlocks nodes ~ [p, s.nodeKey p, s.nodeValue p] ++ s.treeBlocks rest :=
  hperm.flatMap_right _

/-- The nodes of the tree and its sentinel are outstanding. -/
theorem Settled.mem_out (h : s.Settled all t) (hp : p = s.rbtree.nil ∨ p ∈ ptrs t) :
    p ∈ s.stock.out := by
  obtain rfl | hp := hp
  · exact h.shared.mem sentinel_mem List.mem_cons_self
  · exact h.shared.mem tree_mem (List.mem_flatMap.mpr ⟨p, hp, List.mem_cons_self⟩)

/-- A chunk of the pool is no node of the tree. -/
theorem Settled.free (h : s.Settled all t) (hp : p ∈ s.stock.chunks) : s.rbtree.Free p := by
  have hout : p ∉ s.stock.out := fun hin => List.disjoint_of_nodup_append h.nodup hp hin
  refine ⟨?_, fun he => hout (h.mem_out (.inl he)), fun hin => ?_⟩
  · rintro rfl
    exact h.null_notMem (List.mem_append_left _ hp)
  · exact hout (h.mem_out (.inr (h.tree.repr.inTree_iff.mp hin)))

/-- What a `set` comes to: a new node, or three blocks that nothing leads to. -/
theorem Settled.rbtreeSet (h : s.Settled all t)
    (hs : s.rbtreeSet n (some k) (some v) = some (code, s')) :
    (¬ s.rbtree.HasKey k ∧ ∃ t', s'.Settled all t') ∨
    s.rbtree.HasKey k ∧ s'.rbtree.Holds t ∧ s'.array = s.array ∧ s'.hash = s.hash ∧
      s'.stock.chunks.length + 3 = s.stock.chunks.length := by
  obtain ⟨⟨node, stock₁⟩, hnode, hs⟩ := Option.bind_eq_some_iff.mp hs
  obtain ⟨⟨kcopy, kvalue, stock⟩, hcopy, hs⟩ := Option.bind_eq_some_iff.mp hs
  obtain ⟨T', hins, hs⟩ := Option.bind_eq_some_iff.mp hs
  cases hs
  obtain ⟨hchunks, -⟩ := Stock.kvsMalloc_eq hnode
  have hfree := h.free (hchunks ▸ List.mem_cons_self)
  have htree := h.tree.setEntry hfree k (.str v)
  have hfree₂ := (h.tree.free_congr htree rfl).mpr hfree
  have hret := (Rbtree.rbtreeInsert_growing _ node).returns hins
  have hself : ((s.rbtree.setKey node k).setValue node (.str v)).key node = k := by simp
  obtain ⟨T₁, hret₁, hcases⟩ := htree.insert hfree₂
  cases hret.unique hret₁
  rw [hself] at hcases
  rw [h.tree.hasKey_iff]
  obtain ⟨hex, rfl⟩ | ⟨hno, t', ht', hperm⟩ := hcases
  · refine .inr ⟨hex, htree, rfl, rfl, ?_⟩
    rw [hchunks, Stock.copyEntry_chunks hcopy]
    rfl
  · refine .inl ⟨fun ⟨a, ha, hk⟩ => hno a ha hk, t', ?_⟩
    have hnodes : ptrs t' ~ node :: ptrs t := hperm.map Cell.ptr
    have hmem : node ∉ ptrs t := fun hin => hfree.2.2 (h.tree.repr.inTree_iff.mpr hin)
    apply h.setTree ht' (htree.insert_nil hfree₂ hret) (.trans (.kvsMalloc hnode) (.copyEntry hcopy))
    have hafter := treeBlocks_fillNode (s := s) hnodes hmem kcopy kvalue
    simp only [List.append_nil]
    exact List.perm_append_comm.trans hafter.symm

theorem Settled.rbtreeMod (h : s.Settled all t) (hs : s.rbtreeMod n key value = some (code, s')) :
    ∃ t', s'.Settled all t' := by
  cases key with
  | none =>
    cases hs
    exact ⟨t, h⟩
  | some k =>
    cases value with
    | none =>
      cases hs
      exact ⟨t, h⟩
    | some v =>
      obtain ⟨node, hsearch, hs⟩ := Option.bind_eq_some_iff.mp hs
      dsimp only at hs
      by_cases hnull : node = null
      · rw [if_pos hnull] at hs
        cases hs
        exact ⟨t, h⟩
      rw [if_neg hnull] at hs
      by_cases hnil : node = s.rbtree.nil
      · rw [if_pos hnil] at hs
        cases hs
        exact ⟨t, h⟩
      rw [if_neg hnil] at hs
      obtain ⟨⟨kvalue, stock⟩, hmalloc, hs⟩ := Option.bind_eq_some_iff.mp hs
      cases hs
      have hret := (Rbtree.rbtreeSearchFrom_growing s.rbtree k s.rbtree.root).returns hsearch
      obtain ⟨a, ha, -, -, -, hfound⟩ | ⟨-, -, hfound⟩ := h.tree.search k
      · cases hret.unique hfound
        obtain ⟨l, r, t', hl, ht', hl'⟩ := h.tree.setValue ha (.str v)
        have hsame : ptrs t' = ptrs t := by
          rw [ptrs, ptrs, hl, hl']
          simp
        have hperm : ptrs t ~ a.ptr :: (l ++ r).map Cell.ptr := by
          rw [ptrs, hl]
          exact List.perm_middle.map Cell.ptr
        have hnodup : (ptrs t).Nodup :=
          (List.nodup_cons.mp (List.nodup_cons.mp h.tree.repr.nodup).2).2
        have hmem := (List.nodup_cons.mp (hperm.nodup_iff.mp hnodup)).1
        have hbefore := treeBlocks_perm (s := s) hperm
        have hafter := treeBlocks_fillNode (s := s) hperm hmem (s.nodeKey a.ptr) kvalue
        have hfree : s.stock.Trades (s.stock.kvsFree (s.nodeValue a.ptr)) [s.nodeValue a.ptr] [] := by
          apply h.release tree_mem [s.nodeValue a.ptr]
          calc s.treeBlocks (ptrs t)
            _ ~ [a.ptr, s.nodeKey a.ptr] ++
                s.nodeValue a.ptr :: s.treeBlocks ((l ++ r).map Cell.ptr) := hbefore
            _ ~ [s.nodeValue a.ptr] ++ ([a.ptr, s.nodeKey a.ptr] ++
                s.treeBlocks ((l ++ r).map Cell.ptr)) := List.perm_middle
        refine ⟨t', h.setTree ht' rfl (hfree.trans (.kvsMalloc hmalloc)) ?_⟩
        rw [hsame]
        calc s.treeBlocks (ptrs t) ++ [kvalue]
          _ ~ [a.ptr, s.nodeKey a.ptr, s.nodeValue a.ptr] ++
              s.treeBlocks ((l ++ r).map Cell.ptr) ++ [kvalue] := hbefore.append_right _
          _ ~ [a.ptr, s.nodeKey a.ptr, kvalue] ++
              s.treeBlocks ((l ++ r).map Cell.ptr) ++ [s.nodeValue a.ptr] :=
            .cons _ (.cons _ (Stock.exchange _ _ _))
          _ ~ (s.fillNode a.ptr (s.nodeKey a.ptr) kvalue).treeBlocks (ptrs t) ++
              [s.nodeValue a.ptr] := hafter.symm.append_right _
      · exact absurd (hret.unique hfound) hnil

end Ledger
end KvStore
