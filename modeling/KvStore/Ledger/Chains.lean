import KvStore.Ledger.Settled

/-! The calls of the hash engine and the account of the blocks. Only the deletion of the first node
of a chain does not keep it. -/
namespace KvStore
open HashTable Holdings RedBlack
open scoped List

namespace Ledger

variable {s s' : Ledger} {all given taken : List Ptr} {t : RBTree Cell} {stock : Stock}
  {key value : Option CString} {code : ℤ} {i : Fin maxTableSize} {b : NodeBlocks}
  {bs : List NodeBlocks} {l : List HashNode} {n : ℕ}

/-- A call that writes chain `i`. -/
theorem Settled.setBucket (h : s.Settled all t) (hlen : bs.length = l.length) (count : ℤ)
    (hstock : s.stock.Trades stock given taken)
    (hnet : chainBlocks (s.chain i) ++ taken ~ chainBlocks bs ++ given) :
    { s.setBlocks i bs with
      hash := { s.hash.setChain i l with count := count }, stock := stock }.Settled all t := by
  apply h.trade { s.setBlocks i bs with
    hash := { s.hash.setChain i l with count := count }, stock := stock } (bucket_mem i) h.tree
    hstock ?_ ?_ h.slots h.total ?_
  · rintro (_ | _ | _ | j | j) _ hne
    case bucket =>
      have hj : j ≠ i := fun he => hne (he ▸ rfl)
      change chainBlocks (Function.update s.chain i bs j) = _
      rw [Function.update_of_ne hj]
      rfl
    all_goals rfl
  · change _ ~ chainBlocks (Function.update s.chain i bs i) ++ given
    rw [Function.update_self]
    exact hnet
  · intro j
    change (Function.update s.chain i bs j).length = ((s.hash.setChain i l).chain j).length
    rw [chain_setChain]
    by_cases hj : j = i
    · rw [hj, Function.update_self, Function.update_self, hlen]
    · rw [Function.update_of_ne hj, Function.update_of_ne hj]
      exact h.chains j

/-- The blocks of one node apart from those of the others. -/
theorem chainBlocks_eraseIdx (hb : bs[n]? = some b) :
    chainBlocks bs ~ [b.key, b.value, b.node] ++ chainBlocks (bs.eraseIdx n) := by
  obtain ⟨hn, rfl⟩ := List.getElem?_eq_some_iff.mp hb
  have hperm := (List.getElem_cons_eraseIdx_perm hn).symm.flatMap_right
    fun b : NodeBlocks => [b.node, b.key, b.value]
  refine hperm.trans (List.Perm.append_right _ ?_)
  change [bs[n].node] ++ [bs[n].key, bs[n].value] ~ _
  exact List.perm_append_comm

theorem chainBlocks_set (hb : bs[n]? = some b) (c : NodeBlocks) :
    chainBlocks (bs.set n c) ~ [c.key, c.value, c.node] ++ chainBlocks (bs.eraseIdx n) := by
  obtain ⟨hn, rfl⟩ := List.getElem?_eq_some_iff.mp hb
  have hperm := (List.set_perm_cons_eraseIdx hn c).flatMap_right
    fun b : NodeBlocks => [b.node, b.key, b.value]
  refine hperm.trans (List.Perm.append_right _ ?_)
  change [c.node] ++ [c.key, c.value] ~ _
  exact List.perm_append_comm

/-- The slot of a key and its chain. -/
theorem chain_of_chainOf {h : HashTable} {k : CString} {r : Fin maxTableSize × List HashNode}
    (hr : h.chainOf k = some r) : h.chain r.1 = r.2 := by
  obtain ⟨j, -, hr⟩ := Option.bind_eq_some_iff.mp hr
  obtain ⟨l, hl, rfl⟩ := Option.map_eq_some_iff.mp hr
  rw [HashTable.chain, hl]
  rfl

theorem Settled.hashSet (h : s.Settled all t) (hs : s.hashSet key value = some (code, s')) :
    s'.Settled all t := by
  cases key with
  | none =>
    cases hs
    exact h
  | some k =>
    cases value with
    | none =>
      cases hs
      exact h
    | some v =>
      obtain ⟨⟨i, l⟩, hchain, hs⟩ := Option.bind_eq_some_iff.mp hs
      dsimp only at hs
      cases hfound : locate k l with
      | some r =>
        rw [hfound] at hs
        cases hs
        exact h
      | none =>
        rw [hfound] at hs
        obtain ⟨⟨node, stock₁⟩, hnode, hs⟩ := Option.bind_eq_some_iff.mp hs
        obtain ⟨⟨kcopy, kvalue, stock⟩, hcopy, hs⟩ := Option.bind_eq_some_iff.mp hs
        cases hs
        have hlen := (h.chains i).trans (congrArg List.length (chain_of_chainOf hchain))
        apply h.setBucket (by simp [hlen]) _ (.trans (.kvsMalloc hnode) (.copyEntry hcopy))
        simp only [List.append_nil]
        exact List.perm_append_comm

theorem Settled.hashMod (h : s.Settled all t) (hs : s.hashMod key value = some (code, s')) :
    s'.Settled all t := by
  cases key with
  | none =>
    cases hs
    exact h
  | some k =>
    obtain ⟨⟨i, l⟩, hchain, hs⟩ := Option.bind_eq_some_iff.mp hs
    dsimp only at hs
    cases hfound : locate k l with
    | none =>
      rw [hfound] at hs
      cases hs
      exact h
    | some r =>
      obtain ⟨before, node, after⟩ := r
      rw [hfound] at hs
      obtain ⟨v, -, hs⟩ := Option.bind_eq_some_iff.mp hs
      obtain ⟨b, hb, hs⟩ := Option.bind_eq_some_iff.mp hs
      obtain ⟨⟨kvalue, stock⟩, hmalloc, hs⟩ := Option.bind_eq_some_iff.mp hs
      cases hs
      obtain ⟨rfl, -⟩ := eq_of_locate hfound
      have hlen := (h.chains i).trans (congrArg List.length (chain_of_chainOf hchain))
      have hout := chainBlocks_eraseIdx hb
      have hfree : s.stock.Trades (s.stock.kvsFree b.value) [b.value] [] := by
        apply h.release (bucket_mem i) [b.value]
        exact hout.trans (.swap _ _ _)
      have hnet : chainBlocks (s.chain i) ++ [kvalue] ~
          chainBlocks ((s.chain i).set before.length { b with value := kvalue }) ++ [b.value] :=
        calc chainBlocks (s.chain i) ++ [kvalue]
          _ ~ [b.key, b.value, b.node] ++ chainBlocks ((s.chain i).eraseIdx before.length) ++
              [kvalue] := hout.append_right _
          _ ~ [b.key, kvalue, b.node] ++ chainBlocks ((s.chain i).eraseIdx before.length) ++
              [b.value] := .cons _ (Stock.exchange b.value kvalue _)
          _ ~ chainBlocks ((s.chain i).set before.length { b with value := kvalue }) ++
              [b.value] := (chainBlocks_set hb { b with value := kvalue }).symm.append_right _
      have hset : ((s.chain i).set before.length { b with value := kvalue }).length =
          (before ++ { node with value := .str v } :: after).length := by
        rw [List.length_set, hlen, List.length_append, List.length_append]
        rfl
      exact h.setBucket hset s.hash.count (hfree.trans (.kvsMalloc hmalloc)) hnet

theorem Settled.hashDel (h : s.Settled all t) (hs : s.hashDel key = some (code, s'))
    (hhead : ∀ k i head next, key = some k → s.hash.chainOf k = some (i, head :: next) →
      head.key ≠ k) : s'.Settled all t := by
  cases key with
  | none =>
    cases hs
    exact h
  | some k =>
    obtain ⟨⟨i, l⟩, hchain, hs⟩ := Option.bind_eq_some_iff.mp hs
    dsimp only at hs
    cases l with
    | nil =>
      cases hs
      exact h
    | cons head next =>
      have hne := hhead k i head next rfl hchain
      dsimp only at hs
      rw [if_neg ((CString.strcmp_eq_zero _ _).not.mpr hne)] at hs
      cases hfound : locate k next with
      | none =>
        rw [hfound] at hs
        cases hs
        exact h
      | some r =>
        obtain ⟨before, node, after⟩ := r
        rw [hfound] at hs
        obtain ⟨b, hb, hs⟩ := Option.bind_eq_some_iff.mp hs
        cases hs
        obtain ⟨rfl, -⟩ := eq_of_locate hfound
        have hlen := (h.chains i).trans (congrArg List.length (chain_of_chainOf hchain))
        have hout := chainBlocks_eraseIdx hb
        have hfree : s.stock.Trades
            (((s.stock.kvsFree b.key).kvsFree b.value).kvsFree b.node)
            [b.key, b.value, b.node] [] := h.release (bucket_mem i) [b.key, b.value, b.node] hout
        apply h.setBucket ?_ _ hfree ?_
        · rw [List.length_eraseIdx, hlen]
          simp
          omega
        · rw [List.append_nil]
          exact hout.trans List.perm_append_comm

end Ledger
end KvStore
