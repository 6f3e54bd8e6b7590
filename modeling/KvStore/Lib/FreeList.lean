import KvStore.Lib.Memory
import Mathlib.Data.List.Pairwise
import Mathlib.Data.List.Perm.Basic

/-! A free list inside the memory that it manages. The cells nobody took are linked by the words at
their starts; whoever took a cell may write into all of it. -/
namespace KvStore
namespace Memory

/-- Cells of `bytes` bytes that can be linked. -/
structure Arena (arena : List ℕ) (bytes : ℕ) : Prop where
  word : wordBytes ≤ bytes
  address : ∀ p ∈ arena, p ≠ 0 ∧ p < 256 ^ wordBytes
  apart : arena.Pairwise fun p q => Apart ⟨p, bytes⟩ ⟨q, bytes⟩

/-- The chain from `head` leads through the cells that are not out. -/
def Lists (m : ℕ → UInt8) (head : ℕ) (arena out : List ℕ) : Prop :=
  ∃ free, Chain m head free ∧ (free ++ out).Perm arena

/-- The memory changed at most in the cells that are out and outside of all cells. -/
def Spares (m m' : ℕ → UInt8) (arena out : List ℕ) (bytes : ℕ) : Prop :=
  ∀ p ∈ arena, p ∉ out → ∀ a, (⟨p, bytes⟩ : Block).Has a → m' a = m a

variable {m m' : ℕ → UInt8} {arena out : List ℕ} {bytes head p q : ℕ}

namespace Arena

theorem apart_of_ne (ha : Arena arena bytes) (hp : p ∈ arena) (hq : q ∈ arena) (hne : p ≠ q) :
    Apart ⟨p, bytes⟩ ⟨q, bytes⟩ := by
  have hsymm : Std.Symm fun p q => Apart ⟨p, bytes⟩ ⟨q, bytes⟩ := ⟨fun _ _ hab => hab.symm⟩
  exact ha.apart.forall hp hq hne

theorem nodup (ha : Arena arena bytes) : arena.Nodup := by
  refine ha.apart.imp fun {p q} hpq => ?_
  have hpos : 0 < bytes := lt_of_lt_of_le (by decide) ha.word
  exact hpq.ptr_ne hpos hpos

/-- The word that links a cell is in the cell. -/
theorem inside_word (ha : Arena arena bytes) (p : ℕ) :
    Inside ⟨p, wordBytes⟩ ⟨p, bytes⟩ := ⟨Nat.le_refl p, Nat.add_le_add_left ha.word p⟩

theorem words_apart (ha : Arena arena bytes) (hp : p ∈ arena) (hq : q ∈ arena) (hne : p ≠ q) :
    Apart ⟨p, wordBytes⟩ ⟨q, wordBytes⟩ := by
  have hpq := (ha.inside_word p).apart (ha.apart_of_ne hp hq hne)
  exact ((ha.inside_word q).apart hpq.symm).symm

end Arena

/-- The cells of a region that ends in the address space. -/
theorem arena_cells {base stride n : ℕ} (hs : wordBytes ≤ stride) (hbase : base ≠ 0)
    (hb : base + n * stride < 256 ^ wordBytes) : Arena (cells base stride 0 n) stride := by
  refine ⟨hs, fun p hp => ?_, cells_pairwise base stride 0 n⟩
  obtain ⟨j, -, hj, rfl⟩ := mem_cells.mp hp
  rw [Nat.zero_add] at hj
  have hle := cell_le base stride hj
  exact ⟨by omega, by omega⟩

namespace Lists

theorem out_subset (h : Lists m head arena out) (hp : p ∈ out) : p ∈ arena := by
  obtain ⟨free, -, hperm⟩ := h
  exact hperm.subset (List.mem_append_right free hp)

theorem out_nodup (h : Lists m head arena out) (ha : Arena arena bytes) : out.Nodup := by
  obtain ⟨free, -, hperm⟩ := h
  exact (List.nodup_append.mp (hperm.nodup_iff.mpr ha.nodup)).2.1

/-- The chain meets every cell that is not out once, and no other. -/
theorem chain (h : Lists m head arena out) (ha : Arena arena bytes) :
    ∃ free, Chain m head free ∧ free.Nodup ∧ ∀ p, p ∈ free ↔ p ∈ arena ∧ p ∉ out := by
  obtain ⟨free, hchain, hperm⟩ := h
  obtain ⟨hfree, -, hdisj⟩ := List.nodup_append.mp (hperm.nodup_iff.mpr ha.nodup)
  refine ⟨free, hchain, hfree, fun p => ⟨fun hp => ?_, fun ⟨hp, hout⟩ => ?_⟩⟩
  · exact ⟨hperm.subset (List.mem_append_left out hp), fun hout => hdisj p hp p hout rfl⟩
  · exact (List.mem_append.mp (hperm.mem_iff.mpr hp)).resolve_right hout

/-- The list is empty when as many cells are out as there are. -/
theorem head_eq_zero_iff (h : Lists m head arena out) : head = 0 ↔ out.length = arena.length := by
  obtain ⟨free, hchain, hperm⟩ := h
  have hlen := hperm.length_eq
  rw [List.length_append] at hlen
  rw [← hchain.nil_iff, ← List.length_eq_zero_iff]
  omega

/-- The first cell of a list that is not empty can be taken. -/
theorem head_mem (h : Lists m head arena out) (ha : Arena arena bytes) (hne : head ≠ 0) :
    head ∈ arena ∧ head ∉ out := by
  obtain ⟨free, hchain, -, hmem⟩ := h.chain ha
  obtain ⟨rest, rfl, -⟩ := hchain.pop hne
  exact (hmem head).mp List.mem_cons_self

theorem head_lt (h : Lists m head arena out) (ha : Arena arena bytes) :
    head < 256 ^ wordBytes := by
  by_cases hne : head = 0
  · rw [hne]
    exact Nat.pow_pos (by decide)
  · exact (ha.address head (h.head_mem ha hne).1).2

/-- The cell at the front is taken. -/
theorem take (h : Lists m head arena out) (hne : head ≠ 0) :
    Lists m (load m head) arena (head :: out) := by
  obtain ⟨free, hchain, hperm⟩ := h
  obtain ⟨rest, rfl, hrest⟩ := hchain.pop hne
  exact ⟨rest, hrest, List.perm_middle.trans hperm⟩

/-- A cell that was out comes to the front. -/
theorem give (h : Lists m head arena out) (ha : Arena arena bytes) (hp : p ∈ out) :
    Lists (store m p head) p arena (out.erase p) := by
  have hlt := h.head_lt ha
  obtain ⟨free, hchain, hperm⟩ := h
  have hnodup := hperm.nodup_iff.mpr ha.nodup
  have hcell := fun {q} (hq : q ∈ free ++ out) => hperm.subset hq
  refine ⟨p :: free, hchain.push (ha.address p ?_).1 hlt fun q hq => ?_, ?_⟩
  · exact hcell (List.mem_append_right free hp)
  · have hne := (List.nodup_append.mp hnodup).2.2 q hq p hp
    exact ha.words_apart (hcell (List.mem_append_left out hq))
      (hcell (List.mem_append_right free hp)) hne
  · calc (p :: free ++ out.erase p).Perm (free ++ p :: out.erase p) := List.perm_middle.symm
      _ |>.Perm (free ++ out) := (List.perm_cons_erase hp).symm.append_left free
      _ |>.Perm arena := hperm

/-- Writes into cells that are out leave the list alone. -/
theorem write (h : Lists m head arena out) (ha : Arena arena bytes)
    (hw : Spares m m' arena out bytes) : Lists m' head arena out := by
  obtain ⟨free, hchain, hperm⟩ := h
  refine ⟨free, hchain.congr fun p hp => load_congr fun a hpa => ?_, hperm⟩
  have hdisj := (List.nodup_append.mp (hperm.nodup_iff.mpr ha.nodup)).2.2
  exact hw p (hperm.subset (List.mem_append_left out hp)) (fun hout => hdisj p hp p hout rfl) a
    ((ha.inside_word p).has hpa)

end Lists

/-- After the loop and a null pointer in the last cell, all cells are listed. -/
theorem lists_linkCells {base stride n : ℕ} (hs : wordBytes ≤ stride) (hbase : base ≠ 0)
    (hb : base + n * stride < 256 ^ wordBytes) :
    Lists (store (linkCells m base stride n) (base + n * stride) 0) base
      (cells base stride 0 (n + 1)) [] :=
  ⟨_, chain_linkCells hs hbase hb, by rw [List.append_nil]⟩

end Memory
end KvStore
