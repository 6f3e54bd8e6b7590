import KvStore.Ledger.Model
import KvStore.Mempool.Sound

/-! What requests and releases do to the stock of blocks, and that the stock is the one of the
pool. -/
namespace KvStore
open scoped List

namespace Stock

variable {s s' s₁ : Stock} {p kcopy kvalue : Ptr} {size : ℕ} {key value : CString}
  {given taken given' taken' rest : List Ptr}

/-- From `s` to `s'` the blocks `given` came back, all through `kvs_free`, and the blocks `taken`
were handed out. -/
structure Trades (s s' : Stock) (given taken : List Ptr) : Prop where
  out : s'.out ++ given ~ s.out ++ taken
  conserved : s'.chunks ++ s'.out ~ s.chunks ++ s.out
  strays : s'.strays = s.strays

theorem Trades.refl (s : Stock) : s.Trades s [] [] := ⟨.refl _, .refl _, rfl⟩

theorem Trades.trans (h : s.Trades s₁ given taken) (h' : s₁.Trades s' given' taken') :
    s.Trades s' (given ++ given') (taken ++ taken') := by
  refine ⟨?_, h'.conserved.trans h.conserved, h'.strays.trans h.strays⟩
  calc s'.out ++ (given ++ given')
    _ ~ s'.out ++ (given' ++ given) := List.perm_append_comm.append_left _
    _ = s'.out ++ given' ++ given := (List.append_assoc ..).symm
    _ ~ s₁.out ++ taken' ++ given := h'.out.append_right _
    _ = s₁.out ++ (taken' ++ given) := List.append_assoc ..
    _ ~ s₁.out ++ (given ++ taken') := List.perm_append_comm.append_left _
    _ = s₁.out ++ given ++ taken' := (List.append_assoc ..).symm
    _ ~ s.out ++ taken ++ taken' := h.out.append_right _
    _ = s.out ++ (taken ++ taken') := List.append_assoc ..

/-- A request that is served gets the first free chunk. -/
theorem kvsMalloc_eq (h : s.kvsMalloc size = some (p, s')) :
    s.chunks = p :: s'.chunks ∧ size ≤ poolChunkSize.toNat ∧
      s' = { s with chunks := s'.chunks, out := p :: s.out } := by
  unfold kvsMalloc at h
  cases hc : s.chunks with
  | nil =>
    rw [hc] at h
    cases h
  | cons q chunks =>
    rw [hc] at h
    dsimp only at h
    split_ifs at h with hsize
    cases h
    exact ⟨rfl, hsize, rfl⟩

theorem Trades.kvsMalloc (h : s.kvsMalloc size = some (p, s')) : s.Trades s' [] [p] := by
  obtain ⟨hc, -, he⟩ := kvsMalloc_eq h
  have hout : s'.out = p :: s.out := by rw [he]
  refine ⟨?_, ?_, by rw [he]⟩
  · rw [hout, List.append_nil]
    exact (List.perm_append_singleton p s.out).symm
  · rw [hc, hout]
    exact List.perm_middle

theorem Trades.copyEntry (h : s.copyEntry key value = some (kcopy, kvalue, s')) :
    s.Trades s' [] [kcopy, kvalue] := by
  obtain ⟨⟨p, s₁⟩, hk, h⟩ := Option.bind_eq_some_iff.mp h
  obtain ⟨⟨q, s₂⟩, hv, h⟩ := Option.bind_eq_some_iff.mp h
  cases h
  exact (Trades.kvsMalloc hk).trans (.kvsMalloc hv)

theorem copyEntry_chunks (h : s.copyEntry key value = some (kcopy, kvalue, s')) :
    s.chunks = kcopy :: kvalue :: s'.chunks := by
  obtain ⟨⟨p, s₁⟩, hk, h⟩ := Option.bind_eq_some_iff.mp h
  obtain ⟨⟨q, s₂⟩, hv, h⟩ := Option.bind_eq_some_iff.mp h
  cases h
  rw [(kvsMalloc_eq hk).1, (kvsMalloc_eq hv).1]

/-- Blocks that are released one after the other. -/
theorem Trades.kvsFree {ps : List Ptr} (hout : s.out ~ ps ++ rest) (hnull : null ∉ ps) :
    s.Trades (ps.foldl Stock.kvsFree s) ps [] := by
  induction ps generalizing s with
  | nil => exact .refl s
  | cons p ps ih =>
    obtain ⟨hp, hnull⟩ := not_or.mp (List.mem_cons.not.mp hnull)
    have heq : s.kvsFree p = { s with chunks := p :: s.chunks, out := s.out.erase p } :=
      if_neg (Ne.symm hp)
    have hmem : p ∈ s.out := hout.mem_iff.mpr List.mem_cons_self
    have hpop := List.perm_cons_erase hmem
    have hone : s.Trades (s.kvsFree p) [p] [] := by
      rw [heq]
      refine ⟨?_, ?_, rfl⟩
      · rw [List.append_nil]
        exact (List.perm_append_singleton p _).trans hpop.symm
      · exact List.perm_middle.symm.trans (hpop.symm.append_left _)
    have hrest : (s.kvsFree p).out ~ ps ++ rest := by
      rw [heq]
      exact (List.perm_cons p).mp (hpop.symm.trans hout)
    exact hone.trans (ih hrest hnull)

/-- One block is given for another. -/
theorem exchange (p q : Ptr) (l : List Ptr) : p :: l ++ [q] ~ q :: l ++ [p] :=
  calc p :: l ++ [q]
    _ ~ q :: p :: l := List.perm_append_singleton q (p :: l)
    _ ~ p :: q :: l := .swap _ _ _
    _ ~ q :: l ++ [p] := (List.perm_append_singleton p (q :: l)).symm

variable {h : Mempool.Heap}

/-- The free chunks and the outstanding blocks are those of the heap. -/
structure Models (s : Stock) (h : Mempool.Heap) : Prop where
  tidy : Mempool.Tidy h s.chunks
  out : h.out = s.out

/-- A request that the stock serves is served by the pool, whatever `malloc` would answer. -/
theorem Models.kvsMalloc (hm : s.Models h) (hs : s.kvsMalloc size = some (p, s')) (r : Ptr) :
    (Mempool.kvsMalloc h size r).1 = p ∧ s'.Models (Mempool.kvsMalloc h size r).2 := by
  obtain ⟨hc, hsize, he⟩ := kvsMalloc_eq hs
  obtain ⟨ht, hout⟩ := hm
  have hl := ht.listed
  rw [hc] at ht hl
  cases hpool : h.globalPool with
  | none =>
    rw [hpool] at hl
    exact absurd hl (List.cons_ne_nil _ _)
  | some mp =>
    rw [hpool] at hl
    obtain ⟨hinit, hfirst, hp, hrest⟩ := hl
    have heq := Mempool.kvsMalloc_of_chunk (r := r) hsize hpool hinit (hfirst ▸ hp)
    rw [heq, hfirst]
    refine ⟨rfl, ht.pop hinit hrest, ?_⟩
    rw [he, ← hout]

/-- The same for the release of a chunk. -/
theorem Models.kvsFree (hm : s.Models h) (hp : p ∈ s.out) (hpool : h.globalPool.isSome)
    (hlarge : poolChunkSize.toNat ≤ h.cap p) : (s.kvsFree p).Models (Mempool.kvsFree h p) := by
  obtain ⟨ht, hout⟩ := hm
  obtain ⟨mp, hpool⟩ := Option.isSome_iff_exists.mp hpool
  rw [← hout] at hp
  obtain ⟨hnull, -⟩ := ht.held p (List.mem_append_right _ hp)
  have heq : s.kvsFree p = { s with chunks := p :: s.chunks, out := s.out.erase p } := if_neg hnull
  refine ⟨heq ▸ ht.push hpool hp hlarge, ?_⟩
  rw [Mempool.kvsFree_of_pool hpool hnull, heq, hout]

end Stock
end KvStore
