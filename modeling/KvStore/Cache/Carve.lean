import KvStore.Cache.Conserve
import KvStore.Cache.Shared

/-! A refill of the central cache cuts the span that the page cache returned, whatever its free lists
were. The pages are counted once for the page cache and once for the cut. -/
namespace KvStore
open Memory

namespace Cache
namespace Caches

variable {c c₁ : Caches} {index size node map p : ℕ}

/-- The pages that `fetchFromPageCache` asks for. -/
def askedPages (size : ℕ) : ℕ :=
  if size < spanPages * pageSize then spanPages else (size + pageSize - 1) / pageSize

theorem askedPages_eq (size : ℕ) : askedPages size = numPages size := numPages_eq size

theorem fetchFromPageCache_eq (c : Caches) (size node map : ℕ) :
    c.fetchFromPageCache size node map =
      (c.page.allocateSpan c.mem (askedPages size) node map).map fun r =>
        (r.1, ⟨r.2.2, c.central, r.2.1⟩) := by
  unfold fetchFromPageCache
  dsimp only
  rw [← askedPages]
  cases c.page.allocateSpan c.mem (askedPages size) node map with
  | none => rfl
  | some r => rfl

/-- What is left of a span at `p` that was cut into the blocks of a class: they lie apart in the
pages that were asked for, which the page cache has on record as a span, the first is handed out
with a null link, and the others are the central list. -/
structure SpanCut (c c' : Caches) (index node map p : ℕ) : Prop where
  asked : ∃ mem, c.page.allocateSpan c.mem (askedPages (blockSize index)) node map =
    some (p, c'.page, mem)
  recorded : ∀ run : PageRun, run.Tidy → run.pc = c.page → run.mem = c.mem →
    (PageCall.allocate (askedPages (blockSize index)) node map).Valid run →
    ∃ q sp, c'.page.spanMap p = some q ∧ c'.page.spans q = some sp ∧
      sp.pages = (p, askedPages (blockSize index))
  apart : (cells p (blockSize index) 0 (blockNum index)).Pairwise fun q r =>
    Apart ⟨q, blockSize index⟩ ⟨r, blockSize index⟩
  inside : ∀ q ∈ cells p (blockSize index) 0 (blockNum index),
    Inside ⟨q, blockSize index⟩ ⟨p, askedPages (blockSize index) * pageSize⟩
  first : load c'.mem p = null
  rest : Chain c'.mem (c'.central.centralFreelist index)
    (cells p (blockSize index) 1 (blockNum index - 1))

/-- A span that a tidy page cache hands out has the pages that were asked for. -/
theorem recorded_of_asked {run : PageRun} {page : PageCache} {mem : ℕ → UInt8} {n : ℕ}
    (h : run.Tidy) (hv : (PageCall.allocate n node map).Valid run) (hfit : n * pageSize < 2 ^ 64)
    (hr : run.pc.allocateSpan run.mem n node map = some (p, page, mem)) (hp : p ≠ null) :
    ∃ q sp, page.spanMap p = some q ∧ page.spans q = some sp ∧ sp.pages = (p, n) := by
  obtain ⟨run', hstep, hpage⟩ : ∃ run', pageStep run (.allocate n node map) = some (p, run') ∧
      run'.pc = page := by
    rw [pageStep, if_pos hv, hr]
    exact ⟨_, rfl, rfl⟩
  have hspan := (h.allocate hfit hstep).returned hstep hp
  rwa [hpage] at hspan

/-- For every size class of which a span has more than one block, `fetchRange` on an empty central list
cuts the span that the page cache returned. -/
theorem fetchRange_carves (hi : index < freeListSize) (hn : 1 < blockNum index)
    (hempty : c.central.centralFreelist index = null)
    (hfetch : c.fetchFromPageCache (blockSize index) node map = some (p, c₁)) (hp : p ≠ null)
    (hspace : p + askedPages (blockSize index) * pageSize < 256 ^ wordBytes) :
    ∃ c', c.fetchRange index node map = some (p, c') ∧ c.SpanCut c' index node map p := by
  have hpages := askedPages_eq (blockSize index)
  refine ⟨c₁.carve index p, ?_, ?_⟩
  · rw [fetchRange, if_neg (Nat.not_le.mpr hi), if_neg (not_not.mpr hempty), hfetch]
    dsimp only [Option.bind_eq_bind, Option.bind_some]
    rw [if_neg hp, if_pos hn]
  rw [fetchFromPageCache_eq] at hfetch
  obtain ⟨⟨q, page, mem⟩, halloc, hfetch⟩ := Option.map_eq_some_iff.mp hfetch
  have hresult := Prod.mk.inj hfetch
  obtain rfl : p = q := hresult.1.symm
  obtain rfl := hresult.2
  have hspace' : p + (span index p).bytes < 256 ^ wordBytes := by
    rwa [span, ← hpages]
  obtain ⟨⟨-, -, hfirst⟩, hrest⟩ := chain_carve (c := ⟨mem, c.central, page⟩) hn hp hspace'
  refine ⟨⟨mem, halloc⟩, ?_, cells_pairwise p (blockSize index) 0 (blockNum index), ?_, hfirst,
    hrest⟩
  · rintro run htidy hpc hmem hv
    have hfit : askedPages (blockSize index) * pageSize < 2 ^ 64 := by
      rw [hpages, ← systemSize_numPages hi]
      exact Nat.mod_lt _ (by decide)
    rw [← hpc, ← hmem] at halloc
    exact recorded_of_asked htidy hv hfit halloc hp
  · intro q hq
    obtain ⟨j, -, hj, rfl⟩ := mem_cells.mp hq
    rw [hpages]
    exact cell_inside p (by rwa [Nat.zero_add] at hj)

/-- The blocks of eight bytes of the first eight pages. -/
theorem fetchRange_carves_first :
    ∃ c', (System.start (T := Unit) (fun _ => 0) fun _ => 0).fetchRange 0 1 4096 =
      some (4096, c') ∧
    (System.start (T := Unit) (fun _ => 0) fun _ => 0).SpanCut c' 0 1 4096 4096 :=
  fetchRange_carves (by decide) (by decide) rfl rfl (by decide) (by decide)

end Caches
end Cache
end KvStore
