import KvStore.Cache.Placed

/-! The caches in memory: each list of blocks is the chain that its head leads through, and each
step of a thread keeps it so. -/
namespace KvStore
open Memory

namespace Cache

/-- The regions of the spans that `getFromRange` finds. -/
def CentralCache.Tracks (c : CentralCache) (r : Block) : Prop :=
  ∃ k, k < c.spanCount ∧ k < spanTrackerNum ∧
    r = ⟨(c.spanTrackers k).spanAddr, (c.spanTrackers k).numPages * pageSize⟩

namespace Pc

/-- The first of the blocks that a thread has with it. -/
def start : Pc → Ptr
  | idle | fetch _ => null
  | fetched start _ => start
  | returning start _ _ => start

/-- The size class that a thread is busy with. -/
def index : Pc → Option ℕ
  | idle => none
  | fetch size | fetched _ size => some (getIndex size)
  | returning _ _ index => some index

/-- A thread refills an empty list, and returns blocks only of a class that has its spans for
itself or is spent. -/
def Waits (spent : List ℕ) (own : ℕ → List Block) : Pc → Prop
  | idle => True
  | fetch size | fetched _ size => size ≤ maxBytes ∧ own (getIndex size) = []
  | returning _ _ index => index < freeListSize ∧ (index ∈ spent ∨ Caches.blockNum index ≤ 1)

theorem Waits.mono {spent spent' : List ℕ} {own : ℕ → List Block} {pc : Pc}
    (h : pc.Waits spent own) (hs : ∀ j ∈ spent, j ∈ spent') : pc.Waits spent' own := by
  cases pc with
  | idle => trivial
  | fetch size => exact h
  | fetched start size => exact h
  | returning start bytes index => exact ⟨h.1, h.2.imp_left (hs index)⟩

end Pc

variable {T : Type} [DecidableEq T] {s : System T} {lists lists' : Place T → List Block} {t : T}

/-- The pointer that a list of blocks begins with. -/
def System.head (s : System T) : Place T → Option Ptr
  | .thread t i => some ((s.thread t).freelist i)
  | .central i => if i ∈ s.spent then none else some (s.central.centralFreelist i)
  | .flight t => some (s.pc t).start
  | .out => none

def System.index (s : System T) : Place T → Option ℕ
  | .thread _ i => some i
  | .central i => some i
  | .flight t => (s.pc t).index
  | .out => none

structure Orderly (s : System T) (lists : Place T → List Block) : Prop where
  placed : Placed s.pages s.spent s.central.Tracks lists
  out : lists .out = s.out.map extent
  linked : ∀ x p, s.head x = some p → Chain s.mem p ((lists x).map Block.ptr)
  sized : ∀ x i, s.index x = some i → ∀ b ∈ lists x, InClass i b
  waits : ∀ t, (s.pc t).Waits s.spent fun i => lists (.thread t i)
  noSpans : s.page.freeSpans = []

/-- Chains stay when the first words of their blocks do. -/
theorem chain_blocks {m m' : ℕ → UInt8} {p : ℕ} {bs : List Block} (h : Chain m p (bs.map Block.ptr))
    (hm : ∀ b ∈ bs, load m' b.ptr = load m b.ptr) : Chain m' p (bs.map Block.ptr) := by
  refine h.congr fun q hq => ?_
  obtain ⟨b, hb, rfl⟩ := List.mem_map.mp hq
  exact hm b hb

namespace Orderly

omit [DecidableEq T] in
theorem flight_nil (h : Orderly s lists) (hpc : (s.pc t).start = null) :
    lists (.flight t) = [] := by
  have hc := h.linked (.flight t) (s.pc t).start rfl
  rw [hpc] at hc
  exact List.map_eq_nil_iff.mp (hc.nil_iff.mpr rfl)

omit [DecidableEq T] in
theorem bytes_le (h : Orderly s lists) {x : Place T} (hx : x ≠ .out) {b : Block}
    (hb : b ∈ lists x) : b.bytes ≤ maxBytes := by
  cases x with
  | thread t i => exact (h.sized _ i rfl b hb).le_maxBytes
  | central i => exact (h.sized _ i rfl b hb).le_maxBytes
  | flight t =>
    cases hpc : (s.pc t).index with
    | none =>
      have hidle : (s.pc t).start = null := by
        cases h' : s.pc t <;> simp_all [Pc.index, Pc.start]
      rw [h.flight_nil hidle] at hb
      cases hb
    | some i => exact (h.sized (.flight t) i hpc b hb).le_maxBytes
  | out => exact absurd rfl hx

omit [DecidableEq T] in
/-- The blocks that user code does not hold lie in the pages. -/
theorem inside_pages (h : Orderly s lists) {x : Place T} (hx : x ≠ .out) {b : Block}
    (hb : b ∈ lists x) : ∃ r ∈ s.pages, Inside b r :=
  h.placed.paged x b hb (h.bytes_le hx hb)

/-- A step of one thread that touches its list of one class, what it has with it, and the
outstanding blocks. -/
theorem of_local (h : Orderly s lists) {i : ℕ} {mem' : ℕ → UInt8} {c' : ThreadCache} {pc' : Pc}
    {out' : List (Ptr × ℕ)} (hplaced : Placed s.pages s.spent s.central.Tracks lists')
    (hother : ∀ x, x ≠ .thread t i → x ≠ .flight t → x ≠ .out → lists' x = lists x)
    (hmem : ∀ x, x ≠ .thread t i → x ≠ .flight t → x ≠ .out →
      ∀ b ∈ lists x, load mem' b.ptr = load s.mem b.ptr)
    (hlist : ∀ j, j ≠ i → c'.freelist j = (s.thread t).freelist j)
    (hthread : Chain mem' (c'.freelist i) ((lists' (.thread t i)).map Block.ptr))
    (hsize : ∀ b ∈ lists' (.thread t i), InClass i b)
    (hflight : Chain mem' pc'.start ((lists' (.flight t)).map Block.ptr))
    (hfsize : ∀ j, pc'.index = some j → ∀ b ∈ lists' (.flight t), InClass j b)
    (hout : lists' .out = out'.map extent)
    (hwaits : pc'.Waits s.spent fun j => lists' (.thread t j)) :
    Orderly { s with
      mem := mem', thread := Function.update s.thread t c', pc := Function.update s.pc t pc'
      out := out' } lists' := by
  have hframe : ∀ x, x ≠ .thread t i → x ≠ .flight t → x ≠ .out → ∀ p, s.head x = some p →
      Chain mem' p ((lists' x).map Block.ptr) := by
    intro x hx hxf hxo p hp
    rw [hother x hx hxf hxo]
    exact chain_blocks (h.linked x p hp) (hmem x hx hxf hxo)
  refine ⟨hplaced, hout, fun x p hp => ?_, fun x j hj => ?_, fun t' => ?_, h.noSpans⟩
  · cases x with
    | thread t' j =>
      by_cases ht : t' = t
      · subst ht
        simp only [System.head, Function.update_self, Option.some.injEq] at hp
        by_cases hji : j = i
        · rw [hji] at hp ⊢
          exact hp ▸ hthread
        · rw [hlist j hji] at hp
          exact hframe _ (by simp [hji]) (by simp) (by simp) p (congrArg some hp)
      · simp only [System.head, Function.update_of_ne ht] at hp
        exact hframe _ (by simp [ht]) (by simp) (by simp) p hp
    | central j => exact hframe _ (by simp) (by simp) (by simp) p hp
    | flight t' =>
      by_cases ht : t' = t
      · subst ht
        simp only [System.head, Function.update_self, Option.some.injEq] at hp
        exact hp ▸ hflight
      · simp only [System.head, Function.update_of_ne ht] at hp
        exact hframe _ (by simp) (by simp [ht]) (by simp) p hp
    | out => cases hp
  · cases x with
    | thread t' j' =>
      obtain rfl : j' = j := Option.some.inj hj
      by_cases hx : (Place.thread t' j' : Place T) = .thread t i
      · cases hx
        exact hsize
      · rw [hother _ hx (by simp) (by simp)]
        exact h.sized _ j' rfl
    | central j' =>
      rw [hother _ (by simp) (by simp) (by simp)]
      exact h.sized _ j hj
    | flight t' =>
      by_cases ht : t' = t
      · subst ht
        simp only [System.index, Function.update_self] at hj
        exact hfsize j hj
      · simp only [System.index, Function.update_of_ne ht] at hj
        rw [hother _ (by simp) (by simp [ht]) (by simp)]
        exact h.sized (.flight t') j hj
    | out => cases hj
  · dsimp only
    by_cases ht : t' = t
    · subst ht
      rwa [Function.update_self]
    · rw [Function.update_of_ne ht]
      have heq : (fun j => lists' (.thread t' j)) = fun j => lists (.thread t' j) := by
        funext j
        exact hother _ (by simp [ht]) (by simp) (by simp)
      rw [heq]
      exact h.waits t'

/-- A call of the central cache for one thread and one class. -/
theorem of_shared (h : Orderly s lists) {i : ℕ} {caches : Caches} {pc' : Pc} {pages' : List Block}
    {spent' : List ℕ} (hplaced : Placed pages' spent' caches.central.Tracks lists')
    (hother : ∀ x, x ≠ .central i → x ≠ .flight t → lists' x = lists x)
    (hmem : ∀ x, x ≠ .central i → x ≠ .flight t → x ≠ .out →
      ∀ b ∈ lists x, load caches.mem b.ptr = load s.mem b.ptr)
    (hlist : ∀ j, j ≠ i → caches.central.centralFreelist j = s.central.centralFreelist j)
    (hspent : ∀ j, j ∈ s.spent → j ∈ spent')
    (hcentral : i ∉ spent' →
      Chain caches.mem (caches.central.centralFreelist i) ((lists' (.central i)).map Block.ptr))
    (hflight : Chain caches.mem pc'.start ((lists' (.flight t)).map Block.ptr))
    (hfsize : ∀ j, pc'.index = some j → ∀ b ∈ lists' (.flight t), InClass j b)
    (hwaits : pc'.Waits spent' fun j => lists (.thread t j))
    (hspans : caches.page.freeSpans = []) :
    Orderly { s with
      toCaches := caches, pc := Function.update s.pc t pc', pages := pages', spent := spent' }
      lists' := by
  have hframe : ∀ x, x ≠ .central i → x ≠ .flight t → x ≠ .out → ∀ p, s.head x = some p →
      Chain caches.mem p ((lists' x).map Block.ptr) := by
    intro x hx hxf hxo p hp
    rw [hother x hx hxf]
    exact chain_blocks (h.linked x p hp) (hmem x hx hxf hxo)
  refine ⟨hplaced, ?_, fun x p hp => ?_, fun x j hj => ?_, fun t' => ?_, hspans⟩
  · rw [hother _ (by simp) (by simp)]
    exact h.out
  · cases x with
    | thread t' j => exact hframe _ (by simp) (by simp) (by simp) p hp
    | central j =>
      simp only [System.head] at hp
      split at hp
      · cases hp
      · rename_i hj
        by_cases hji : j = i
        · subst hji
          exact Option.some.inj hp ▸ hcentral hj
        · refine hframe _ (by simp [hji]) (by simp) (by simp) p ?_
          rw [System.head, if_neg fun hs => hj (hspent j hs), ← hlist j hji]
          exact hp
    | flight t' =>
      by_cases ht : t' = t
      · subst ht
        simp only [System.head, Function.update_self, Option.some.injEq] at hp
        exact hp ▸ hflight
      · simp only [System.head, Function.update_of_ne ht] at hp
        exact hframe _ (by simp) (by simp [ht]) (by simp) p hp
    | out => cases hp
  · cases x with
    | thread t' j' =>
      rw [hother _ (by simp) (by simp)]
      exact h.sized _ j hj
    | central j' =>
      obtain rfl : j' = j := Option.some.inj hj
      exact hplaced.sized j'
    | flight t' =>
      by_cases ht : t' = t
      · subst ht
        simp only [System.index, Function.update_self] at hj
        exact hfsize j hj
      · simp only [System.index, Function.update_of_ne ht] at hj
        rw [hother _ (by simp) (by simp [ht])]
        exact h.sized (.flight t') j hj
    | out => cases hj
  · have heq : ∀ t', (fun j => lists' (.thread t' j)) = fun j => lists (.thread t' j) := by
      intro t'
      funext j
      exact hother _ (by simp) (by simp)
    rw [heq]
    dsimp only
    by_cases ht : t' = t
    · subst ht
      rwa [Function.update_self]
    · rw [Function.update_of_ne ht]
      exact (h.waits t').mono hspent

end Orderly
end Cache
end KvStore
