import KvStore.Array.Slots
import KvStore.Ledger.Settled

/-! The calls of the array engine keep the account of the blocks. -/
namespace KvStore
open KvsArray HashTable Holdings RedBlack
open scoped List

namespace Ledger

variable {s s' : Ledger} {all given taken : List Ptr} {t : RBTree Cell} {stock : Stock}
  {key value : Option CString} {code : ℤ} {a : KvsArray} {i : ℕ} {x : ArrayItem}
  {kcopy kvalue : Ptr}

theorem eq_of_lock {inst : KvsArray} (h : a.lock = some inst) :
    inst.table = a.table ∧ inst.total = a.total := by
  unfold KvsArray.lock at h
  split_ifs at h
  cases h
  exact ⟨rfl, rfl⟩

/-- The mutex has no part in the account. -/
theorem Settled.withArray (h : s.Settled all t) (htable : a.table = s.array.table)
    (htotal : a.total = s.array.total) : { s with array := a }.Settled all t where
  distinct := h.distinct
  tree := h.tree
  shared := by
    apply h.shared.congr
    rintro (_ | _ | _ | i | i) _
    case slot =>
      change (a.table i).blocks _ _ = (s.array.table i).blocks _ _
      rw [htable]
    all_goals rfl
  conserved := h.conserved
  strays := h.strays
  slots := by
    rw [htable, htotal]
    exact h.slots
  total := htotal ▸ h.total
  chains := h.chains

/-- A call that writes slot `i`. -/
theorem Settled.setSlot (h : s.Settled all t) (hi : i < kvsArraySize)
    (htable : a.table = Function.update s.array.table i x)
    (hstock : s.stock.Trades stock given taken)
    (hnet : s.slotBlocks i ++ taken ~ x.blocks kcopy kvalue ++ given)
    (hslots : ∀ j k, (a.table j).key = .str k → j < a.total) (htotal : a.total ≤ kvsArraySize) :
    { s.fillSlot i kcopy kvalue with array := a, stock := stock }.Settled all t := by
  apply h.trade { s.fillSlot i kcopy kvalue with array := a, stock := stock } (slot_mem hi) h.tree
    hstock ?_ ?_ hslots htotal h.chains
  · rintro (_ | _ | _ | j | j) _ hne
    case slot =>
      have hj : j ≠ i := fun he => hne (he ▸ rfl)
      change (a.table j).blocks (Function.update s.slotKey i kcopy j)
        (Function.update s.slotValue i kvalue j) = _
      rw [htable, Function.update_of_ne hj, Function.update_of_ne hj, Function.update_of_ne hj]
      rfl
    all_goals rfl
  · change _ ~ (a.table i).blocks (Function.update s.slotKey i kcopy i)
      (Function.update s.slotValue i kvalue i) ++ given
    rw [htable, Function.update_self, Function.update_self, Function.update_self]
    exact hnet

theorem slotBlocks_of_str {k : CString} (hk : (s.array.table i).key = .str k) :
    s.slotBlocks i = [s.slotKey i, s.slotValue i] := by
  rw [slotBlocks, ArrayItem.blocks, hk]

theorem slotBlocks_of_ne (hk : ∀ k, (s.array.table i).key ≠ .str k) : s.slotBlocks i = [] := by
  unfold slotBlocks ArrayItem.blocks
  split
  · next k hkey => exact absurd hkey (hk k)
  · rfl

theorem null_of_scanHole {table : ℕ → ArrayItem} {j n : ℕ}
    (h : scanHole table i n = some (some j)) : (table j).key = .null ∧ j < i + n := by
  induction n generalizing i with
  | zero => cases h
  | succ n ih =>
    rw [scanHole] at h
    split_ifs at h
    cases hkey : (table i).key with
    | str k =>
      rw [hkey] at h
      obtain ⟨hj, hlt⟩ := ih h
      exact ⟨hj, by omega⟩
    | null =>
      rw [hkey] at h
      cases h
      exact ⟨hkey, by omega⟩
    | uninit =>
      rw [hkey] at h
      cases h
    | freed =>
      rw [hkey] at h
      cases h

/-- The slot that a scan finds. -/
theorem str_of_scan {checked : Bool} {k : CString} {n : ℕ} (hn : n ≤ kvsArraySize)
    (h : scan checked a.table k 0 n = some (some i)) : (a.table i).key = .str k ∧ i < n := by
  have hspec := scan_spec (b := checked) (t := a.table) (k := k) (i := 0) (n := n) (by omega)
  rw [h] at hspec
  exact ⟨hspec.2.1, by omega⟩

/-- A slot without a key comes to hold a copy of the entry. -/
theorem Settled.fill (h : s.Settled all t) {k v : CString} (hi : i ≤ s.array.total)
    (hroom : s.array.total < kvsArraySize) (hkey : ∀ k, (s.array.table i).key ≠ .str k)
    (hstock : s.stock.copyEntry k v = some (kcopy, kvalue, stock)) (locked : Bool) :
    { s.fillSlot i kcopy kvalue with
      array := ⟨Function.update s.array.table i (.live k v), s.array.total + 1, locked⟩
      stock := stock }.Settled all t := by
  apply h.setSlot (by omega) rfl (.copyEntry hstock) ?_ ?_ (by dsimp only; omega)
  · rw [slotBlocks_of_ne hkey]
    exact .refl _
  · intro j k' hj
    dsimp only at hj ⊢
    by_cases hji : j = i
    · omega
    · rw [Function.update_of_ne hji] at hj
      have := h.slots j k' hj
      omega

/-- A slot with a key is emptied. -/
theorem Settled.empty (h : s.Settled all t) {k : CString} (hk : (s.array.table i).key = .str k)
    {total : ℕ} (htotal : total = s.array.total ∨ total = i ∧ i + 1 = s.array.total)
    (locked : Bool) :
    { s.fillSlot i null null with
      array := ⟨Function.update s.array.table i .hole, total, locked⟩
      stock := (s.stock.kvsFree (s.slotKey i)).kvsFree (s.slotValue i) }.Settled all t := by
  have hi := h.slots i k hk
  have hbound := h.total
  have hblocks := slotBlocks_of_str hk
  have hstock : s.stock.Trades ((s.stock.kvsFree (s.slotKey i)).kvsFree (s.slotValue i))
      [s.slotKey i, s.slotValue i] [] := by
    apply h.release (slot_mem (hi.trans_le hbound)) [s.slotKey i, s.slotValue i]
    change s.slotBlocks i ~ _
    rw [hblocks, List.append_nil]
  apply h.setSlot (hi.trans_le hbound) rfl hstock ?_ ?_ (by dsimp only; omega)
  · rw [hblocks]
    exact .refl _
  · intro j k' hj
    dsimp only at hj ⊢
    by_cases hji : j = i
    · rw [hji, Function.update_self] at hj
      cases hj
    · rw [Function.update_of_ne hji] at hj
      have := h.slots j k' hj
      omega

/-- A slot with a key comes to hold a copy of another value. -/
theorem Settled.refill (h : s.Settled all t) {k v : CString} {size : ℕ}
    (hk : (s.array.table i).key = .str k)
    (hstock : (s.stock.kvsFree (s.slotValue i)).kvsMalloc size = some (kvalue, stock))
    (locked : Bool) :
    { s.fillSlot i (s.slotKey i) kvalue with
      array := ⟨Function.update s.array.table i { s.array.table i with value := .str v },
        s.array.total, locked⟩
      stock := stock }.Settled all t := by
  have hi := h.slots i k hk
  have hslot := slot_mem (hi.trans_le h.total)
  have hblocks := slotBlocks_of_str hk
  have hfree : s.stock.Trades (s.stock.kvsFree (s.slotValue i)) [s.slotValue i] [] := by
    apply h.release hslot [s.slotValue i]
    change s.slotBlocks i ~ _
    rw [hblocks]
    exact .swap _ _ _
  apply h.setSlot (hi.trans_le h.total) rfl (hfree.trans (.kvsMalloc hstock)) ?_ ?_ ?_
  · rw [hblocks, ArrayItem.blocks, hk]
    exact .cons _ (.swap _ _ _)
  · intro j k' hj
    apply h.slots j k'
    by_cases hji : j = i
    · simpa [hji] using hj
    · simpa [hji] using hj
  · exact h.total

theorem Settled.arraySet (h : s.Settled all t) (hs : s.arraySet key value = some (code, s')) :
    s'.Settled all t := by
  obtain ⟨inst, hlock, hs⟩ := Option.bind_eq_some_iff.mp hs
  obtain ⟨htable, htotal⟩ := eq_of_lock hlock
  cases key with
  | none =>
    cases hs
    exact h.withArray htable htotal
  | some k =>
    cases value with
    | none =>
      cases hs
      exact h.withArray htable htotal
    | some v =>
      dsimp only at hs
      rw [htotal] at hs
      by_cases hfull : s.array.total = kvsArraySize
      · rw [if_pos hfull] at hs
        cases hs
        exact h.withArray htable htotal
      rw [if_neg hfull] at hs
      have hroom : s.array.total < kvsArraySize := lt_of_le_of_ne h.total hfull
      obtain ⟨found, -, hs⟩ := Option.bind_eq_some_iff.mp hs
      cases found with
      | some j =>
        cases hs
        exact h.withArray htable htotal
      | none =>
        obtain ⟨⟨kcopy, kvalue, stock⟩, hstock, hs⟩ := Option.bind_eq_some_iff.mp hs
        obtain ⟨hole, hscan, hs⟩ := Option.bind_eq_some_iff.mp hs
        cases hole with
        | some i =>
          obtain ⟨hnull, hi⟩ := null_of_scanHole hscan
          rw [htable] at hnull
          cases hs
          have hfill := h.fill (i := i) (by omega) hroom (by simp [hnull]) hstock false
          simpa only [KvsArray.setItem, KvsArray.unlock, htable, htotal] using hfill
        | none =>
          have hfree : ∀ k, (s.array.table s.array.total).key ≠ .str k :=
            fun k hk => (h.slots _ k hk).false
          dsimp only at hs
          rw [if_pos (htotal ▸ hroom)] at hs
          cases hs
          have hfill := h.fill le_rfl hroom hfree hstock false
          simpa only [KvsArray.setItem, KvsArray.unlock, htable, htotal] using hfill

theorem Settled.arrayDel (h : s.Settled all t) (hs : s.arrayDel key = some (code, s')) :
    s'.Settled all t := by
  obtain ⟨inst, hlock, hs⟩ := Option.bind_eq_some_iff.mp hs
  obtain ⟨htable, htotal⟩ := eq_of_lock hlock
  cases key with
  | none =>
    cases hs
    exact h.withArray htable htotal
  | some k =>
    obtain ⟨found, hscan, hs⟩ := Option.bind_eq_some_iff.mp hs
    cases found with
    | none =>
      cases hs
      exact h.withArray htable htotal
    | some i =>
      obtain ⟨hk, hi⟩ := str_of_scan (htotal ▸ h.total) hscan
      rw [htable] at hk
      dsimp only at hs
      split_ifs at hs with hfreed hlast
      · cases hs
        change inst.total - 1 = i at hlast
        have hempty := h.empty hk (.inr ⟨hlast, by omega⟩) false
        simpa only [KvsArray.setItem, KvsArray.unlock, htable] using hempty
      · cases hs
        have hempty := h.empty hk (.inl htotal) false
        simpa only [KvsArray.setItem, KvsArray.unlock, htable] using hempty

theorem Settled.arrayMod (h : s.Settled all t) (hs : s.arrayMod key value = some (code, s')) :
    s'.Settled all t := by
  obtain ⟨inst, hlock, hs⟩ := Option.bind_eq_some_iff.mp hs
  obtain ⟨htable, htotal⟩ := eq_of_lock hlock
  cases key with
  | none =>
    cases hs
    exact h.withArray htable htotal
  | some k =>
    cases value with
    | none =>
      cases hs
      exact h.withArray htable htotal
    | some v =>
      dsimp only at hs
      by_cases hzero : inst.total = 0
      · rw [if_pos hzero] at hs
        cases hs
        exact h.withArray htable htotal
      rw [if_neg hzero] at hs
      obtain ⟨found, hscan, hs⟩ := Option.bind_eq_some_iff.mp hs
      cases found with
      | none =>
        cases hs
        exact h.withArray htable htotal
      | some i =>
        obtain ⟨hk, hi⟩ := str_of_scan (htotal ▸ h.total) hscan
        rw [htable] at hk
        dsimp only at hs
        split_ifs at hs with hfreed
        obtain ⟨⟨kvalue, stock⟩, hmalloc, hs⟩ := Option.bind_eq_some_iff.mp hs
        cases hs
        have hrefill := h.refill (v := v) hk hmalloc false
        simpa only [KvsArray.setItem, KvsArray.unlock, htable, htotal] using hrefill

end Ledger
end KvStore
