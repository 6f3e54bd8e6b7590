import KvStore.Lib.Endian

/-! Byte-addressed memory: blocks of addresses, words stored in them, and lists whose links are
the words at the start of their blocks. -/
namespace KvStore
namespace Memory

/-- The bytes from `ptr` on. -/
structure Block where
  ptr : ℕ
  bytes : ℕ
deriving DecidableEq

/-- The address is one of the block's. -/
def Block.Has (b : Block) (a : ℕ) : Prop := b.ptr ≤ a ∧ a < b.ptr + b.bytes

/-- No byte of one block lies before the end of the other. -/
def Apart (a b : Block) : Prop := a.ptr + a.bytes ≤ b.ptr ∨ b.ptr + b.bytes ≤ a.ptr

instance (a b : Block) : Decidable (Apart a b) := inferInstanceAs (Decidable (_ ∨ _))

/-- The first block lies in the second. -/
def Inside (a b : Block) : Prop := b.ptr ≤ a.ptr ∧ a.ptr + a.bytes ≤ b.ptr + b.bytes

@[simp] theorem has_mk {p n a : ℕ} : (⟨p, n⟩ : Block).Has a ↔ p ≤ a ∧ a < p + n := Iff.rfl

@[simp] theorem apart_mk {p n q k : ℕ} : Apart ⟨p, n⟩ ⟨q, k⟩ ↔ p + n ≤ q ∨ q + k ≤ p := Iff.rfl

theorem Apart.symm {a b : Block} (h : Apart a b) : Apart b a := Or.symm h

theorem Inside.apart {a b c : Block} (h : Inside a b) (hb : Apart b c) : Apart a c := by
  unfold Inside at h
  unfold Apart at hb ⊢
  omega

theorem Inside.has {a b : Block} (h : Inside a b) {x : ℕ} (hx : a.Has x) : b.Has x := by
  unfold Inside at h
  unfold Block.Has at *
  omega

theorem Apart.not_has {a b : Block} (h : Apart a b) {x : ℕ} (hx : a.Has x) : ¬ b.Has x := by
  unfold Apart at h
  unfold Block.Has at *
  omega

theorem Inside.refl (a : Block) : Inside a a := ⟨Nat.le_refl _, Nat.le_refl _⟩

theorem Apart.ptr_ne {a b : Block} (h : Apart a b) (ha : 0 < a.bytes) (hb : 0 < b.bytes) :
    a.ptr ≠ b.ptr := by
  unfold Apart at h
  omega

theorem not_apart_self {a : Block} (ha : 0 < a.bytes) : ¬ Apart a a :=
  fun h => h.ptr_ne ha ha rfl

/-- The bytes of a word. -/
abbrev wordBytes : ℕ := 8

/-- The word at an address. -/
def load (m : ℕ → UInt8) (p : ℕ) : ℕ :=
  Endian.ofBytes ((List.range wordBytes).map fun i => m (p + i))

/-- The memory with a word written at an address. -/
def store (m : ℕ → UInt8) (p v : ℕ) : ℕ → UInt8 := fun a =>
  if p ≤ a ∧ a < p + wordBytes then UInt8.ofNat (v / 256 ^ (a - p)) else m a

variable {m m' : ℕ → UInt8} {p q v : ℕ}

theorem load_lt (m : ℕ → UInt8) (p : ℕ) : load m p < 256 ^ wordBytes := by
  have hlt := Nat.ofDigits_lt_base_pow_length (b := 256) (by decide)
    (l := ((List.range wordBytes).map fun i => m (p + i)).map UInt8.toNat) (by
      intro d hd
      obtain ⟨b, -, rfl⟩ := List.mem_map.mp hd
      exact b.toNat_lt)
  rwa [List.length_map, List.length_map, List.length_range] at hlt

theorem load_congr (h : ∀ a, (⟨p, wordBytes⟩ : Block).Has a → m' a = m a) :
    load m' p = load m p := by
  unfold load
  congr 1
  apply List.map_congr_left
  intro i hi
  exact h _ ⟨Nat.le_add_right _ _, Nat.add_lt_add_left (List.mem_range.mp hi) _⟩

theorem store_of_not_has {a : ℕ} (h : ¬ (⟨p, wordBytes⟩ : Block).Has a) : store m p v a = m a :=
  if_neg h

theorem load_store (hv : v < 256 ^ wordBytes) : load (store m p v) p = v := by
  have hbytes : (List.range wordBytes).map (fun i => store m p v (p + i)) =
      Endian.toBytes wordBytes v := by
    apply List.map_congr_left
    intro i hi
    have hlt := List.mem_range.mp hi
    rw [store, if_pos ⟨Nat.le_add_right _ _, Nat.add_lt_add_left hlt _⟩, Nat.add_sub_cancel_left]
  rw [load, hbytes, Endian.ofBytes_toBytes_of_lt hv]

theorem load_store_of_apart (h : Apart ⟨q, wordBytes⟩ ⟨p, wordBytes⟩) :
    load (store m p v) q = load m q := by
  apply load_congr
  intro a ha
  exact store_of_not_has (h.not_has ha)

/-- From `p` the words at the start of the blocks lead through `qs` to a null pointer. -/
def Chain (m : ℕ → UInt8) : ℕ → List ℕ → Prop
  | p, [] => p = 0
  | p, q :: qs => p = q ∧ q ≠ 0 ∧ Chain m (load m q) qs

theorem Chain.congr {qs : List ℕ} (h : Chain m p qs) (hm : ∀ q ∈ qs, load m' q = load m q) :
    Chain m' p qs := by
  induction qs generalizing p with
  | nil => exact h
  | cons q qs ih =>
    obtain ⟨hp, hq, hqs⟩ := h
    refine ⟨hp, hq, ?_⟩
    rw [hm q (List.mem_cons_self)]
    exact ih hqs fun r hr => hm r (List.mem_cons_of_mem q hr)

theorem Chain.nil_iff {qs : List ℕ} (h : Chain m p qs) : qs = [] ↔ p = 0 := by
  cases qs with
  | nil => exact ⟨fun _ => h, fun _ => rfl⟩
  | cons q qs =>
    obtain ⟨rfl, hq, -⟩ := h
    simp [hq]

/-- A non-null chain begins with its first pointer. -/
theorem Chain.pop {qs : List ℕ} (h : Chain m p qs) (hp : p ≠ 0) :
    ∃ rest, qs = p :: rest ∧ Chain m (load m p) rest := by
  cases qs with
  | nil => exact absurd h hp
  | cons q qs =>
    obtain ⟨rfl, -, hqs⟩ := h
    exact ⟨qs, rfl, hqs⟩

/-- A block is put in front of a chain by writing the old head into it. -/
theorem Chain.push {qs : List ℕ} (h : Chain m p qs) (hq : q ≠ 0) (hp : p < 256 ^ wordBytes)
    (hqs : ∀ r ∈ qs, Apart ⟨r, wordBytes⟩ ⟨q, wordBytes⟩) : Chain (store m q p) q (q :: qs) := by
  refine ⟨rfl, hq, ?_⟩
  rw [load_store hp]
  exact h.congr fun r hr => load_store_of_apart (hqs r hr)

/-- The loop that makes each of the first `n` cells of a region point to the next one. -/
def linkCells (m : ℕ → UInt8) (base stride : ℕ) : ℕ → ℕ → UInt8
  | 0 => m
  | n + 1 => store (linkCells m base stride n) (base + n * stride) (base + (n + 1) * stride)

/-- The cells of a region from number `i` on. -/
def cells (base stride i n : ℕ) : List ℕ := (List.range' i n).map fun j => base + j * stride

theorem cells_succ (base stride i n : ℕ) :
    cells base stride i (n + 1) = (base + i * stride) :: cells base stride (i + 1) n := rfl

theorem mem_cells {base stride i n q : ℕ} :
    q ∈ cells base stride i n ↔ ∃ j, i ≤ j ∧ j < i + n ∧ q = base + j * stride := by
  simp only [cells, List.mem_map, List.mem_range'_1]
  constructor
  · rintro ⟨j, ⟨h₁, h₂⟩, rfl⟩
    exact ⟨j, h₁, h₂, rfl⟩
  · rintro ⟨j, h₁, h₂, rfl⟩
    exact ⟨j, ⟨h₁, h₂⟩, rfl⟩

variable {base stride : ℕ}

theorem cell_le (base stride : ℕ) {i j : ℕ} (hij : i < j) : base + i * stride + stride ≤ base + j * stride := by
  have := Nat.mul_le_mul_right stride (Nat.succ_le_of_lt hij)
  rw [Nat.succ_mul] at this
  omega

theorem cells_apart {i j b c : ℕ} (hij : i ≠ j) (hb : b ≤ stride) (hc : c ≤ stride) :
    Apart ⟨base + i * stride, b⟩ ⟨base + j * stride, c⟩ := by
  rw [apart_mk]
  rcases Nat.lt_or_gt_of_ne hij with h | h
  · have := cell_le base stride h
    omega
  · have := cell_le base stride h
    omega

theorem cells_pairwise (base stride i n : ℕ) :
    (cells base stride i n).Pairwise fun p q => Apart ⟨p, stride⟩ ⟨q, stride⟩ := by
  refine List.pairwise_map.mpr ((List.pairwise_lt_range' 1 (by decide)).imp fun {j k} hjk => ?_)
  exact cells_apart hjk.ne le_rfl le_rfl

/-- The loop writes into its cells only. -/
theorem linkCells_of_not_has {n a : ℕ} (hs : wordBytes ≤ stride)
    (h : ¬ (⟨base, n * stride⟩ : Block).Has a) : linkCells m base stride n a = m a := by
  induction n with
  | zero => rfl
  | succ n ih =>
    rw [has_mk, Nat.succ_mul] at h
    rw [has_mk] at ih
    rw [linkCells, store_of_not_has, ih]
    · omega
    · rw [has_mk]
      omega

theorem load_linkCells {n i : ℕ} (hs : wordBytes ≤ stride) (hi : i < n)
    (hb : base + n * stride < 256 ^ wordBytes) :
    load (linkCells m base stride n) (base + i * stride) = base + (i + 1) * stride := by
  induction n with
  | zero => omega
  | succ n ih =>
    rw [linkCells]
    have hle : base + n * stride ≤ base + (n + 1) * stride := by
      rw [Nat.succ_mul]
      omega
    rcases Nat.lt_succ_iff_lt_or_eq.mp hi with hlt | rfl
    · rw [load_store_of_apart (cells_apart hlt.ne hs hs)]
      exact ih hlt (by omega)
    · exact load_store hb

/-- After the loop and a null pointer in the last cell, the cells are a chain. -/
theorem chain_linkCells {n : ℕ} (hs : wordBytes ≤ stride) (hbase : base ≠ 0)
    (hb : base + n * stride < 256 ^ wordBytes) :
    Chain (store (linkCells m base stride n) (base + n * stride) 0) base
      (cells base stride 0 (n + 1)) := by
  have hfrom : ∀ k i, i + k = n →
      Chain (store (linkCells m base stride n) (base + n * stride) 0) (base + i * stride)
        (cells base stride i (k + 1)) := by
    intro k
    induction k with
    | zero =>
      intro i hi
      rw [Nat.add_zero] at hi
      subst hi
      rw [cells_succ]
      refine ⟨rfl, Nat.ne_of_gt (Nat.add_pos_left (Nat.pos_of_ne_zero hbase) _), ?_⟩
      exact load_store (Nat.pow_pos (by decide))
    | succ k ih =>
      intro i hi
      have hne : i ≠ n := by omega
      rw [cells_succ]
      refine ⟨rfl, Nat.ne_of_gt (Nat.add_pos_left (Nat.pos_of_ne_zero hbase) _), ?_⟩
      rw [load_store_of_apart (cells_apart hne hs hs), load_linkCells hs (by omega) hb]
      exact ih (i + 1) (by omega)
  have hall := hfrom n 0 (Nat.zero_add n)
  rwa [Nat.zero_mul, Nat.add_zero] at hall

end Memory
end KvStore
