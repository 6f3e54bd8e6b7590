import KvStore.Cache.Thread
import KvStore.Lib.Places

/-! Where the blocks of the caches are: on a list of a thread, on a central list, on the way
between the two, or with user code; and how a step may move them. -/
namespace KvStore
open Memory

namespace Cache

inductive Place (T : Type)
  | thread (t : T) (index : ℕ)
  | central (index : ℕ)
  | flight (t : T)
  | out
  deriving DecidableEq

/-- The blocks that a span is cut into are more than one exactly up to half of a span. -/
theorem blockNum_le_one_iff {i : ℕ} : Caches.blockNum i ≤ 1 ↔ 16384 < blockSize i := by
  have hpos : 0 < blockSize i := by
    unfold blockSize alignment
    omega
  unfold Caches.blockNum Caches.numPages spanPages pageSize
  split
  · rw [← Nat.lt_succ_iff, Nat.div_lt_iff_lt_mul hpos]
    omega
  · rw [← Nat.lt_succ_iff, Nat.div_lt_iff_lt_mul hpos]
    omega

theorem blockSize_le_maxBytes {i : ℕ} (hi : i < freeListSize) : blockSize i ≤ maxBytes := by
  have hlist : freeListSize = 32768 := rfl
  unfold blockSize alignment maxBytes
  omega

theorem wordBytes_le_blockSize (i : ℕ) : wordBytes ≤ blockSize i :=
  Nat.le_mul_of_pos_left 8 (Nat.succ_pos i)

theorem blockSize_inj {i j : ℕ} (h : blockSize i = blockSize j) : i = j := by
  unfold blockSize alignment at h
  omega

/-- A block of the class fits in the pages that are asked for it. -/
theorem blockSize_le_numPages (i : ℕ) :
    blockSize i ≤ Caches.numPages (blockSize i) * pageSize := by
  unfold Caches.numPages spanPages pageSize
  split <;> omega

/-- The block is one of a size class. -/
def InClass (i : ℕ) (b : Block) : Prop := b.bytes = blockSize i ∧ i < freeListSize

theorem InClass.le_maxBytes {i : ℕ} {b : Block} (h : InClass i b) : b.bytes ≤ maxBytes :=
  h.1 ▸ blockSize_le_maxBytes h.2

variable {T : Type} [DecidableEq T] {pages : List Block} {spent : List ℕ} {tracks : Block → Prop}
  {lists : Place T → List Block} {x y : Place T}

/-- What a class has in circulation, when it is at most one block. -/
def Lone (spent : List ℕ) (lists : Place T → List Block) : Prop :=
  ∀ i, i < freeListSize → i ∉ spent → 1 < Caches.blockNum i →
    ∃ b₀, ∀ x, x ≠ .central i → ∀ b ∈ lists x, b.bytes = blockSize i →
      b = b₀ ∧ lists (.central i) ≠ []

/-- The blocks are placed well: apart from each other and inside the pages. As long as no refill
of a class that shares its spans took blocks from the central list, a single block of the class is
in circulation; and no tracked span holds a block that is a span of its own. -/
structure Placed (pages : List Block) (spent : List ℕ) (tracks : Block → Prop)
    (lists : Place T → List Block) : Prop where
  separate : Separate lists
  valid : ∀ x, ∀ b ∈ lists x, b.ptr ≠ null ∧ b.ptr < 256 ^ wordBytes ∧ wordBytes ≤ b.bytes
  paged : ∀ x, ∀ b ∈ lists x, b.bytes ≤ maxBytes → ∃ r ∈ pages, Inside b r
  sized : ∀ i, ∀ b ∈ lists (.central i), InClass i b
  emptied : ∀ i ∈ spent, lists (.central i) = []
  lone : Lone spent lists
  tracked : ∀ r, tracks r → r ∈ pages ∧
    ∀ x, ∀ b ∈ lists x, 16384 < b.bytes → b.bytes ≤ maxBytes → ¬ r.Has b.ptr

namespace Placed

omit [DecidableEq T] in
/-- No other blocks than before. -/
theorem of_subset (h : Placed pages spent tracks lists) {lists' : Place T → List Block}
    {spent' : List ℕ} (hsep : Separate lists') (hall : ∀ x, ∀ b ∈ lists' x, ∃ y, b ∈ lists y)
    (hsized : ∀ i, ∀ b ∈ lists' (.central i), InClass i b)
    (hemptied : ∀ i ∈ spent', lists' (.central i) = []) (hlone : Lone spent' lists') :
    Placed pages spent' tracks lists' := by
  refine ⟨hsep, ?_, ?_, hsized, hemptied, hlone, ?_⟩
  · intro x b hb
    obtain ⟨y, hy⟩ := hall x b hb
    exact h.valid y b hy
  · intro x b hb
    obtain ⟨y, hy⟩ := hall x b hb
    exact h.paged y b hy
  · intro r hr
    refine ⟨(h.tracked r hr).1, fun x b hb => ?_⟩
    obtain ⟨y, hy⟩ := hall x b hb
    exact (h.tracked r hr).2 y b hy

omit [DecidableEq T] in
/-- No other blocks than before, and the central lists are the same. -/
theorem of_central_eq (h : Placed pages spent tracks lists) {lists' : Place T → List Block}
    (hsep : Separate lists') (hcentral : ∀ i, lists' (.central i) = lists (.central i))
    (hmem : ∀ x, (∀ i, x ≠ .central i) → ∀ b ∈ lists' x, ∃ y, (∀ i, y ≠ .central i) ∧ b ∈ lists y) :
    Placed pages spent tracks lists' := by
  have hfrom : ∀ x, ∀ b ∈ lists' x, ∃ y, b ∈ lists y ∧ ∀ i, x ≠ .central i → y ≠ .central i := by
    intro x b hb
    cases x with
    | central i =>
      rw [hcentral i] at hb
      exact ⟨_, hb, fun _ hne => hne⟩
    | thread | flight | out =>
      obtain ⟨y, hyc, hy⟩ := hmem _ (by simp) b hb
      exact ⟨y, hy, fun i _ => hyc i⟩
  refine h.of_subset hsep (fun x b hb => ?_) (fun i => ?_) (fun i => ?_) fun i hi hs hn => ?_
  · obtain ⟨y, hy, -⟩ := hfrom x b hb
    exact ⟨y, hy⟩
  · rw [hcentral i]
    exact h.sized i
  · rw [hcentral i]
    exact h.emptied i
  · obtain ⟨b₀, hb₀⟩ := h.lone i hi hs hn
    refine ⟨b₀, fun x hx b hb hbytes => ?_⟩
    rw [hcentral i]
    obtain ⟨y, hy, hyc⟩ := hfrom x b hb
    exact hb₀ y (hyc i hx) b hy hbytes

/-- Blocks change between two places that are no central lists. -/
theorem exchange (h : Placed pages spent tracks lists) (hxy : x ≠ y) (hx : ∀ i, x ≠ .central i)
    (hy : ∀ i, y ≠ .central i) {xs ys : List Block}
    (hsub : (xs ++ ys).Subperm (lists x ++ lists y)) :
    Placed pages spent tracks (Function.update (Function.update lists x xs) y ys) := by
  refine h.of_central_eq (h.separate.exchange hxy hsub) (fun i => ?_) fun z hz b hb => ?_
  · rw [Function.update_of_ne (hy i).symm, Function.update_of_ne (hx i).symm]
  · have hfrom : b ∈ xs ++ ys → ∃ y, (∀ i, y ≠ .central i) ∧ b ∈ lists y := by
      intro hb
      rcases List.mem_append.mp (hsub.subset hb) with hb | hb
      · exact ⟨x, hx, hb⟩
      · exact ⟨y, hy, hb⟩
    by_cases hzy : z = y
    · rw [hzy, Function.update_self] at hb
      exact hfrom (List.mem_append_right _ hb)
    rw [Function.update_of_ne hzy] at hb
    by_cases hzx : z = x
    · rw [hzx, Function.update_self] at hb
      exact hfrom (List.mem_append_left _ hb)
    rw [Function.update_of_ne hzx] at hb
    exact ⟨z, hz, hb⟩

/-- Blocks of user code go out of use. -/
theorem dropOut (h : Placed pages spent tracks lists) {xs : List Block}
    (hsub : xs.Subperm (lists .out)) :
    Placed pages spent tracks (Function.update lists .out xs) := by
  refine h.of_central_eq (h.separate.replace (pairwise_subperm hsub (h.separate.within _))
    fun y hy a ha b hb => h.separate.across _ _ hy.symm a (hsub.subset ha) b hb)
    (fun i => by rw [Function.update_of_ne (by simp)]) fun z hz b hb => ?_
  by_cases hzy : z = .out
  · rw [hzy, Function.update_self] at hb
    exact ⟨.out, by simp, hsub.subset hb⟩
  rw [Function.update_of_ne hzy] at hb
  exact ⟨z, hz, hb⟩

/-- User code gets a block from `malloc`. -/
theorem addOut (h : Placed pages spent tracks lists) {b : Block} (hnull : b.ptr ≠ null)
    (hspace : b.ptr < 256 ^ wordBytes) (hlarge : maxBytes < b.bytes)
    (hnew : ∀ y, ∀ c ∈ lists y, Apart b c) :
    Placed pages spent tracks (Function.update lists .out (b :: lists .out)) := by
  have hmax : maxBytes = 262144 := rfl
  have hmem : ∀ x, ∀ c ∈ Function.update lists .out (b :: lists .out) x,
      c = b ∨ c ∈ lists x := by
    intro x c hc
    by_cases hx : x = .out
    · subst hx
      rw [Function.update_self] at hc
      exact List.mem_cons.mp hc
    · rw [Function.update_of_ne hx] at hc
      exact .inr hc
  have hcentral : ∀ i, Function.update lists .out (b :: lists .out) (.central i) =
      lists (.central i) := fun i => Function.update_of_ne (by simp) _ _
  refine ⟨?_, ?_, ?_, ?_, ?_, ?_, ?_⟩
  · refine h.separate.replace (List.pairwise_cons.mpr ⟨fun c hc => hnew _ c hc,
      h.separate.within _⟩) fun y hy a ha c hc => ?_
    rcases List.mem_cons.mp ha with rfl | ha
    · exact hnew y c hc
    · exact h.separate.across _ _ hy.symm a ha c hc
  · intro x c hc
    rcases hmem x c hc with rfl | hc
    · exact ⟨hnull, hspace, le_trans (by decide) hlarge.le⟩
    · exact h.valid x c hc
  · intro x c hc hle
    rcases hmem x c hc with rfl | hc
    · omega
    · exact h.paged x c hc hle
  · intro i c hc
    rw [hcentral i] at hc
    exact h.sized i c hc
  · intro i hi
    rw [hcentral i]
    exact h.emptied i hi
  · intro i hi hs hn
    obtain ⟨b₀, hb₀⟩ := h.lone i hi hs hn
    refine ⟨b₀, fun x hx c hc hbytes => ?_⟩
    rw [hcentral i]
    rcases hmem x c hc with rfl | hc
    · have hle := blockSize_le_maxBytes hi
      omega
    · exact hb₀ x hx c hc hbytes
  · intro r hr
    refine ⟨(h.tracked r hr).1, fun x c hc hlt hle => ?_⟩
    rcases hmem x c hc with rfl | hc
    · omega
    · exact (h.tracked r hr).2 x c hc hlt hle

/-- A refill takes all blocks of a central list, and the class is spent. -/
theorem spend (h : Placed pages spent tracks lists) {t : T} {i : ℕ} (hflight : lists (.flight t) = []) :
    Placed pages (i :: spent) tracks
      (Function.update (Function.update lists (.central i) []) (.flight t) (lists (.central i))) := by
  set lists' := Function.update (Function.update lists (.central i) []) (.flight t)
    (lists (.central i)) with hlists'
  have hi : lists' (.central i) = [] := by simp [hlists']
  have hj : ∀ j, j ≠ i → lists' (.central j) = lists (.central j) := by
    intro j hji
    simp [hlists', hji]
  have hmem : ∀ x, ∀ b ∈ lists' x, b ∈ lists x ∨ b ∈ lists (.central i) := by
    intro x b hb
    by_cases hx : x = .flight t
    · rw [hx, hlists', Function.update_self] at hb
      exact .inr hb
    rw [hlists', Function.update_of_ne hx] at hb
    by_cases hxi : x = .central i
    · simp [hxi] at hb
    rw [Function.update_of_ne hxi] at hb
    exact .inl hb
  refine h.of_subset ?_ (fun x b hb => ?_) (fun j b hb => ?_) (fun j hjs => ?_)
    fun j hlt hjs hn => ?_
  · refine h.separate.exchange (by simp) ?_
    rw [hflight, List.append_nil]
    exact List.Subperm.refl _
  · rcases hmem x b hb with hb | hb
    · exact ⟨x, hb⟩
    · exact ⟨_, hb⟩
  · by_cases hji : j = i
    · rw [hji, hi] at hb
      simp at hb
    · rw [hj j hji] at hb
      exact h.sized j b hb
  · by_cases hji : j = i
    · rw [hji, hi]
    · rw [hj j hji]
      exact h.emptied j ((List.mem_cons.mp hjs).resolve_left hji)
  · obtain ⟨hji, hjs⟩ := not_or.mp (fun hc => hjs (List.mem_cons.mpr hc))
    obtain ⟨b₀, hb₀⟩ := h.lone j hlt hjs hn
    refine ⟨b₀, fun x hx b hb hbytes => ?_⟩
    rw [hj j hji]
    rcases hmem x b hb with hb | hb
    · exact hb₀ x hx b hb hbytes
    · exact absurd (blockSize_inj ((h.sized i b hb).1.symm.trans hbytes)).symm hji

/-- Blocks come back to a central list of a class that has its spans for itself. -/
theorem giveBack (h : Placed pages spent tracks lists) {t : T} {i : ℕ} {taken : List Block}
    (his : i ∉ spent) (hsingle : Caches.blockNum i ≤ 1) (hsub : taken.Sublist (lists (.flight t)))
    (hsize : ∀ b ∈ taken, InClass i b) :
    Placed pages spent tracks (Function.update (Function.update lists (.flight t) [])
      (.central i) (taken ++ lists (.central i))) := by
  set lists' := Function.update (Function.update lists (.flight t) []) (.central i)
    (taken ++ lists (.central i)) with hlists'
  have hi : lists' (.central i) = taken ++ lists (.central i) := by simp [hlists']
  have hj : ∀ j, j ≠ i → lists' (.central j) = lists (.central j) := by
    intro j hji
    simp [hlists', hji]
  have hmem : ∀ x, ∀ b ∈ lists' x, b ∈ lists x ∨ x = .central i ∧ b ∈ lists (.flight t) := by
    intro x b hb
    by_cases hx : x = .central i
    · rw [hx, hi] at hb
      rcases List.mem_append.mp hb with hb | hb
      · exact .inr ⟨hx, hsub.subset hb⟩
      · exact .inl (hx ▸ hb)
    rw [hlists', Function.update_of_ne hx] at hb
    by_cases hxt : x = .flight t
    · simp [hxt] at hb
    rw [Function.update_of_ne hxt] at hb
    exact .inl hb
  refine h.of_subset ?_ (fun x b hb => ?_) (fun j b hb => ?_) (fun j hjs => ?_)
    fun j hlt hjs hn => ?_
  · refine h.separate.exchange (by simp) ?_
    exact (hsub.append (List.Sublist.refl _)).subperm
  · rcases hmem x b hb with hb | ⟨-, hb⟩
    · exact ⟨x, hb⟩
    · exact ⟨_, hb⟩
  · by_cases hji : j = i
    · rw [hji, hi] at hb
      rw [hji]
      rcases List.mem_append.mp hb with hb | hb
      · exact hsize b hb
      · exact h.sized i b hb
    · rw [hj j hji] at hb
      exact h.sized j b hb
  · have hji : j ≠ i := fun hji => his (hji ▸ hjs)
    rw [hj j hji]
    exact h.emptied j hjs
  · have hji : j ≠ i := by
      rintro rfl
      omega
    obtain ⟨b₀, hb₀⟩ := h.lone j hlt hjs hn
    refine ⟨b₀, fun x hx b hb hbytes => ?_⟩
    rw [hj j hji]
    by_cases hxi : x = .central i
    · rw [hxi, hi] at hb
      have hbi : b.bytes = blockSize i := by
        rcases List.mem_append.mp hb with hb | hb
        · exact (hsize b hb).1
        · exact (h.sized i b hb).1
      exact absurd (blockSize_inj (hbi.symm.trans hbytes)).symm hji
    · rcases hmem x b hb with hb | ⟨hxi', -⟩
      · exact hb₀ x hx b hb hbytes
      · exact absurd hxi' hxi

/-- New pages `r` are cut into the block that a thread gets and those of the central list. -/
theorem refill (h : Placed pages spent tracks lists) {t : T} {i : ℕ} {r b : Block}
    {rest : List Block} {tracks' : Block → Prop} (hi : i < freeListSize)
    (hcentral : lists (.central i) = [])
    (hfresh : ∀ q ∈ pages, Apart r q) (hlarge : ∀ y, ∀ c ∈ lists y, maxBytes < c.bytes → Apart r c)
    (hvalid : ∀ c ∈ b :: rest, c.ptr ≠ null ∧ c.ptr < 256 ^ wordBytes ∧ c.bytes = blockSize i ∧
      Inside c r)
    (hapart : (b :: rest).Pairwise Apart) (hrest : 1 < Caches.blockNum i ↔ rest ≠ [])
    (hspent : i ∈ spent → rest = [])
    (htracks : ∀ q, tracks' q → tracks q ∨ q = r ∧ 1 < Caches.blockNum i) :
    Placed (r :: pages) spent tracks'
      (Function.update (Function.update lists (.flight t) [b]) (.central i) rest) := by
  set lists' := Function.update (Function.update lists (.flight t) [b]) (.central i) rest
    with hlists'
  have hnew : ∀ c ∈ b :: rest, ∀ y, ∀ d ∈ lists y, Apart c d := by
    intro c hc y d hd
    have hin := (hvalid c hc).2.2.2
    by_cases hd' : d.bytes ≤ maxBytes
    · obtain ⟨q, hq, hdq⟩ := h.paged y d hd hd'
      exact (hdq.apart (hin.apart (hfresh q hq)).symm).symm
    · exact hin.apart (hlarge y d hd (by omega))
  have hmem : ∀ x, ∀ c ∈ lists' x, c ∈ b :: rest ∧ (x = .flight t ∧ c = b ∨ x = .central i) ∨
      x ≠ .central i ∧ c ∈ lists x := by
    intro x c hc
    by_cases hx : x = .central i
    · rw [hx, hlists', Function.update_self] at hc
      exact .inl ⟨List.mem_cons_of_mem _ hc, .inr hx⟩
    rw [hlists', Function.update_of_ne hx] at hc
    by_cases hxt : x = .flight t
    · rw [hxt, Function.update_self, List.mem_singleton] at hc
      exact .inl ⟨hc ▸ List.mem_cons_self, .inl ⟨hxt, hc⟩⟩
    rw [Function.update_of_ne hxt] at hc
    exact .inr ⟨hx, hc⟩
  have hbytes := blockSize_le_maxBytes hi
  refine ⟨?_, fun x c hc => ?_, fun x c hc hle => ?_, fun j c hc => ?_, fun j hj => ?_,
    fun j hlt hjs hn => ?_, fun q hq => ?_⟩
  · have hone : [b].Pairwise Apart := List.pairwise_singleton _ _
    have hfirst := h.separate.replace (x := .flight t) hone
      fun y _ a ha d hd => hnew a (List.mem_cons.mpr (.inl (List.mem_singleton.mp ha))) y d hd
    refine hfirst.replace (List.pairwise_cons.mp hapart).2 fun y hy a ha d hd => ?_
    by_cases hyt : y = .flight t
    · rw [hyt, Function.update_self, List.mem_singleton] at hd
      rw [hd]
      exact ((List.pairwise_cons.mp hapart).1 a ha).symm
    · rw [Function.update_of_ne hyt] at hd
      exact hnew a (List.mem_cons_of_mem _ ha) y d hd
  · rcases hmem x c hc with ⟨hc, -⟩ | ⟨-, hc⟩
    · obtain ⟨hnull, hspace, hsize, -⟩ := hvalid c hc
      exact ⟨hnull, hspace, hsize ▸ wordBytes_le_blockSize i⟩
    · exact h.valid x c hc
  · rcases hmem x c hc with ⟨hc, -⟩ | ⟨-, hc⟩
    · exact ⟨r, List.mem_cons_self, (hvalid c hc).2.2.2⟩
    · obtain ⟨q, hq, hin⟩ := h.paged x c hc hle
      exact ⟨q, List.mem_cons_of_mem _ hq, hin⟩
  · rcases hmem _ c hc with ⟨hc', ⟨hx, -⟩ | hx⟩ | ⟨-, hc'⟩
    · cases hx
    · cases hx
      exact ⟨(hvalid c hc').2.2.1, hi⟩
    · exact h.sized j c hc'
  · by_cases hji : j = i
    · subst hji
      rw [hlists', Function.update_self]
      exact hspent hj
    · rw [hlists', Function.update_of_ne (by simp [hji]), Function.update_of_ne (by simp)]
      exact h.emptied j hj
  · by_cases hji : j = i
    · subst hji
      obtain ⟨b₀, hb₀⟩ := h.lone j hlt hjs hn
      refine ⟨b, fun x hx c hc hsize => ?_⟩
      rw [hlists', Function.update_self]
      rcases hmem x c hc with ⟨-, ⟨-, rfl⟩ | hxi⟩ | ⟨-, hc⟩
      · exact ⟨rfl, hrest.mp hn⟩
      · exact absurd hxi hx
      · exact absurd hcentral (hb₀ x hx c hc hsize).2
    · obtain ⟨b₀, hb₀⟩ := h.lone j hlt hjs hn
      refine ⟨b₀, fun x hx c hc hsize => ?_⟩
      rw [hlists', Function.update_of_ne (by simp [hji]), Function.update_of_ne (by simp)]
      rcases hmem x c hc with ⟨hc, -⟩ | ⟨-, hc⟩
      · exact absurd (blockSize_inj ((hvalid c hc).2.2.1.symm.trans hsize)).symm hji
      · exact hb₀ x hx c hc hsize
  · have hold : ∀ x, ∀ c ∈ lists x, c.bytes ≤ maxBytes → ¬ r.Has c.ptr := by
      intro x c hc hle
      obtain ⟨q, hq, hin⟩ := h.paged x c hc hle
      have hpos : 0 < c.bytes := lt_of_lt_of_le (by decide) (h.valid x c hc).2.2
      exact fun hr => (hfresh q hq).not_has hr (hin.has ⟨Nat.le_refl _, by omega⟩)
    rcases htracks q hq with hq | ⟨rfl, hn⟩
    · refine ⟨List.mem_cons_of_mem _ (h.tracked q hq).1, fun x c hc hlt hle hqc => ?_⟩
      rcases hmem x c hc with ⟨hc, -⟩ | ⟨-, hc⟩
      · obtain ⟨-, -, hsize, hin⟩ := hvalid c hc
        exact (hfresh q (h.tracked q hq).1).not_has (hin.has ⟨Nat.le_refl _, by omega⟩) hqc
      · exact (h.tracked q hq).2 x c hc hlt hle hqc
    · refine ⟨List.mem_cons_self, fun x c hc hlt hle => ?_⟩
      rcases hmem x c hc with ⟨hc, -⟩ | ⟨-, hc⟩
      · have hsize := (hvalid c hc).2.2.1
        have hcontra : Caches.blockNum i ≤ 1 := blockNum_le_one_iff.mpr (hsize ▸ hlt)
        omega
      · exact hold x c hc hle

end Placed
end Cache
end KvStore
