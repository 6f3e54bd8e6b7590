import KvStore.Skip.Model

/-! Which blocks hold a node: the calls write to nodes that are there, `kvs_skiptable_zadd` puts one
more into the block at hand and `kvs_skiptable_zrem` takes one away. -/
namespace KvStore
namespace SkipList

variable {S : Type*} {L L' : SkipList S} {p q u : Ptr} {update : ℕ → Option Ptr} {i count : ℕ}

/-- The same blocks hold a node, and the same one the header. -/
structure SameBlocks (L L' : SkipList S) : Prop where
  header : L'.header = L.header
  blocks : ∀ q, (L'.nodes q).isSome = (L.nodes q).isSome

theorem SameBlocks.refl (L : SkipList S) : L.SameBlocks L := ⟨rfl, fun _ => rfl⟩

theorem SameBlocks.trans {M : SkipList S} (h : L.SameBlocks L') (h' : L'.SameBlocks M) :
    L.SameBlocks M :=
  ⟨h'.header.trans h.header, fun q => (h'.blocks q).trans (h.blocks q)⟩

theorem SameBlocks.setNode {node : SkipNode S} (h : (L.nodes p).isSome) :
    L.SameBlocks (L.setNode p (some node)) := by
  refine ⟨rfl, fun q => ?_⟩
  by_cases hq : q = p
  · subst hq
    simp [h]
  · simp [Function.update_of_ne hq]

theorem SameBlocks.write {x : Ptr} (h : L.write p i x = some L') : L.SameBlocks L' := by
  obtain ⟨node, hnode, h⟩ := Option.bind_eq_some_iff.mp h
  split_ifs at h
  cases h
  exact .setNode (Option.isSome_of_eq_some hnode)

theorem SameBlocks.link (h : link p update count i L = some L') : L.SameBlocks L' := by
  induction count generalizing i L with
  | zero =>
    cases h
    exact .refl _
  | succ count ih =>
    obtain ⟨u, -, h⟩ := Option.bind_eq_some_iff.mp h
    obtain ⟨next, -, h⟩ := Option.bind_eq_some_iff.mp h
    obtain ⟨L₁, hnew, h⟩ := Option.bind_eq_some_iff.mp h
    obtain ⟨L₂, hlast, h⟩ := Option.bind_eq_some_iff.mp h
    exact ((SameBlocks.write hnew).trans (.write hlast)).trans (ih h)

theorem SameBlocks.unlink (h : unlink p update count i L = some L') : L.SameBlocks L' := by
  induction count generalizing i L with
  | zero =>
    cases h
    exact .refl _
  | succ count ih =>
    obtain ⟨u, -, h⟩ := Option.bind_eq_some_iff.mp h
    obtain ⟨next, -, h⟩ := Option.bind_eq_some_iff.mp h
    split_ifs at h
    · cases h
      exact .refl _
    · obtain ⟨next, -, h⟩ := Option.bind_eq_some_iff.mp h
      obtain ⟨L₁, hlast, h⟩ := Option.bind_eq_some_iff.mp h
      exact (SameBlocks.write hlast).trans (ih h)

theorem zaddNew_blocks {level : ℕ} {key value : CString} {score : S} {r : ℤ}
    (h : zaddNew L update p level key value score = some (r, L')) :
    r = 0 ∧ L'.header = L.header ∧ ∀ q, (L'.nodes q).isSome ↔ q = p ∨ (L.nodes q).isSome := by
  obtain ⟨L₁, hlink, h⟩ := Option.bind_eq_some_iff.mp h
  cases h
  have hsame := SameBlocks.link hlink
  have hraised : (if level > L.level then { L with level := level } else L).header = L.header ∧
      (if level > L.level then { L with level := level } else L).nodes = L.nodes := by
    split_ifs
    · exact ⟨rfl, rfl⟩
    · exact ⟨rfl, rfl⟩
  refine ⟨rfl, hsame.header.trans hraised.1, fun q => ?_⟩
  dsimp only
  rw [hsame.blocks]
  by_cases hq : q = p
  · subst hq
    simp [createSkipNode]
  · simp [createSkipNode, hraised.2, hq]

/-- A member that is there gets its value in its own node, a new one the block at hand. -/
theorem zadd_blocks [LT S] [DecidableLT S] [BEq S] {n level : ℕ} {key value : CString} {score : S} {r : ℤ}
    (h : kvsSkiptableZadd n L p level key value score = some (r, L')) :
    (r = 1 ∧ L.SameBlocks L') ∨ (r = 0 ∧ L'.header = L.header ∧
      ∀ q, (L'.nodes q).isSome ↔ q = p ∨ (L.nodes q).isSome) := by
  obtain ⟨⟨current, update⟩, -, h⟩ := Option.bind_eq_some_iff.mp h
  obtain ⟨next, -, h⟩ := Option.bind_eq_some_iff.mp h
  split_ifs at h with hnull
  · obtain ⟨node, hnode, h⟩ := Option.bind_eq_some_iff.mp h
    split_ifs at h
    · cases h
      exact .inl ⟨rfl, .setNode (Option.isSome_of_eq_some hnode)⟩
    · exact .inr (zaddNew_blocks h)
  · exact .inr (zaddNew_blocks h)

/-- One node goes, or nothing happens. -/
theorem zrem_blocks {n : ℕ} {key : CString} {r : ℤ} (h : kvsSkiptableZrem n L key = some (r, L')) :
    (r = -1 ∧ L' = L) ∨ (r = 0 ∧ L'.header = L.header ∧ ∃ p, (L.nodes p).isSome ∧
      ∀ q, (L'.nodes q).isSome ↔ q ≠ p ∧ (L.nodes q).isSome) := by
  obtain ⟨⟨current, update⟩, -, h⟩ := Option.bind_eq_some_iff.mp h
  obtain ⟨next, -, h⟩ := Option.bind_eq_some_iff.mp h
  split_ifs at h with hnull
  · obtain ⟨node, hnode, h⟩ := Option.bind_eq_some_iff.mp h
    split_ifs at h
    · obtain ⟨L₁, hunlink, h⟩ := Option.bind_eq_some_iff.mp h
      obtain ⟨level, -, h⟩ := Option.bind_eq_some_iff.mp h
      cases h
      have hsame := SameBlocks.unlink hunlink
      refine .inr ⟨rfl, hsame.header, next, Option.isSome_of_eq_some hnode, fun q => ?_⟩
      by_cases hq : q = next
      · subst hq
        simp
      · simp [hq, hsame.blocks]
    · cases h
      exact .inl ⟨rfl, rfl⟩
  · cases h
    exact .inl ⟨rfl, rfl⟩

end SkipList
end KvStore
