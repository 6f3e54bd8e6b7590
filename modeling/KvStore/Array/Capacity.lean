import KvStore.Array.Dense

/-! The capacity of the array engine. `total` counts the slots up to the last one in use and is what a
`set` compares with the size of the table, so that it refuses by the number of live keys only while
the two agree. -/
namespace KvStore
open Guarded

namespace KvsArray

/-- A call of `kvs_array_set` or `kvs_array_del`; memory is there for the copies. -/
inductive Edit
  | set (key value : CString)
  | del (key : CString)

/-- A call, with the live keys kept beside the array: those that a `set` answered 0 for and that
were not deleted since. -/
def edit (s : KvsArray × Finset CString) : Edit → Option (ℤ × KvsArray × Finset CString)
  | .set k v => (kvsArraySet s.1 ⟨true, true⟩ (some k) (some v)).map fun r =>
    (r.1, r.2, if r.1 = 0 then insert k s.2 else s.2)
  | .del k => (kvsArrayDel s.1 (some k)).map fun r => (r.1, r.2, s.2.erase k)

/-- A present key is reported, and an absent one refused exactly when the table is full of keys. -/
def Lawful (s : KvsArray × Finset CString) : Edit → ℤ → Prop
  | .set k _, r => if k ∈ s.2 then r = 1 else (r = -1 ↔ s.2.card = kvsArraySize)
  | .del _, _ => True

/-- Every slot of the table has a pair. -/
def Packed (a : KvsArray) : Prop := ∀ i < kvsArraySize, ∃ k v, a.table i = .live k v

/-- Where `total` says that the table is full, it is, and the key is not there; elsewhere the scan
of a `set` meets no unwritten slot, and that of a `del` no hole either. -/
def Roomy (a : KvsArray) : Edit → Prop
  | .set k _ => if a.total = kvsArraySize then ¬ a.Held k ∧ a.Packed else Unobstructed true a k
  | .del k => Unobstructed false a k

/-- The invariant of the runs. -/
structure Keyed (s : KvsArray × Finset CString) : Prop where
  tidy : s.1.Tidy
  held : ∀ k, s.1.Held k ↔ k ∈ s.2

variable {a a' : KvsArray} {K : Finset CString} {k v : CString} {i n : ℕ}

theorem Keyed.create : Keyed (kvsArrayCreate, ∅) := by
  refine ⟨.create, fun k => ?_⟩
  simp [Held, kvsArrayCreate]

/-- Keys that have slots in some set are no more than its slots. -/
theorem card_le_of_slots {S : Finset ℕ} (h : ∀ k ∈ K, ∃ i ∈ S, (a.table i).key = .str k) :
    K.card ≤ S.card := by
  choose! f hf using h
  apply Finset.card_le_card_of_injOn f
  · exact fun k hk => (hf k hk).1
  · intro k hk l hl he
    have hkey := (hf k hk).2
    rw [he, (hf l hl).2] at hkey
    cases hkey
    rfl

theorem Keyed.card_le (h : Keyed (a, K)) : K.card ≤ a.total := by
  rw [← Finset.card_range a.total]
  apply card_le_of_slots (a := a)
  intro k hk
  obtain ⟨i, hi, hkey⟩ := (h.held k).mpr hk
  exact ⟨i, Finset.mem_range.mpr hi, hkey⟩

/-- There are as many live keys as slots when every slot has a pair. -/
theorem Keyed.card_eq_iff (h : Keyed (a, K)) : K.card = kvsArraySize ↔ a.Packed := by
  have hbound : a.total ≤ kvsArraySize := h.tidy.bound
  have hle := h.card_le
  constructor
  · intro hcard i hi
    by_contra hno
    have hrest : K.card ≤ ((Finset.range a.total).erase i).card := by
      apply card_le_of_slots (a := a)
      intro k hk
      obtain ⟨j, hj, hkey⟩ := (h.held k).mpr hk
      refine ⟨j, Finset.mem_erase.mpr ⟨?_, Finset.mem_range.mpr hj⟩, hkey⟩
      rintro rfl
      obtain ⟨-, w, hlive⟩ := h.tidy.live_of_key hkey
      exact hno ⟨k, w, hlive⟩
    rw [Finset.card_erase_of_mem (Finset.mem_range.mpr (by omega)), Finset.card_range] at hrest
    omega
  · intro hpacked
    refine le_antisymm (hle.trans hbound) (card_le_of_keys h.tidy ?_)
    intro i hi
    obtain ⟨k, w, hlive⟩ := hpacked i hi
    have hkey : (a.table i).key = .str k := by rw [hlive]; rfl
    exact ⟨k, (h.held k).mp ⟨i, (h.tidy.live_of_key hkey).1, hkey⟩, hkey⟩

theorem held_filled (ha : a.Tidy) (hk : ¬ a.Held k) (hi : i ≤ a.total)
    (hfree : i < a.total → (a.table i).key = .null) (l : CString) :
    (a.filled i k v).Held l ↔ l = k ∨ a.Held l := by
  constructor
  · rintro ⟨j, hj, hkey⟩
    dsimp only [filled, setItem] at hj hkey
    by_cases hji : j = i
    · rw [hji, Function.update_self] at hkey
      cases hkey
      exact .inl rfl
    · rw [Function.update_of_ne hji] at hkey
      exact .inr ⟨j, (ha.live_of_key hkey).1, hkey⟩
  · rintro (rfl | ⟨j, hj, hkey⟩)
    · refine ⟨i, Nat.lt_succ_of_le hi, ?_⟩
      dsimp only [filled, setItem]
      rw [Function.update_self]
      rfl
    · have hji : j ≠ i := by
        rintro rfl
        rw [hfree hj] at hkey
        cases hkey
      refine ⟨j, Nat.lt_succ_of_lt hj, ?_⟩
      dsimp only [filled, setItem]
      rwa [Function.update_of_ne hji]

theorem held_cleared (ha : a.Tidy) (hi : a.table i = .live k v) (l : CString) :
    (a.cleared i).Held l ↔ l ≠ k ∧ a.Held l := by
  have hkey : (a.table i).key = .str k := by rw [hi]; rfl
  constructor
  · rintro ⟨j, -, hj⟩
    dsimp only [cleared, setItem] at hj
    by_cases hji : j = i
    · rw [hji, Function.update_self] at hj
      cases hj
    · rw [Function.update_of_ne hji] at hj
      refine ⟨?_, j, (ha.live_of_key hj).1, hj⟩
      rintro rfl
      exact hji (ha.distinct j i l hj hkey)
  · rintro ⟨hne, j, hj, hl⟩
    have hji : j ≠ i := by
      rintro rfl
      rw [hkey] at hl
      cases hl
      exact hne rfl
    refine ⟨j, (total_cleared (ha.live_of_key hkey).1).2 j hj hji, ?_⟩
    dsimp only [cleared, setItem]
    rwa [Function.update_of_ne hji]

/-- A `set` that is answered 0 adds its key. -/
theorem Keyed.fill (h : Keyed (a, K)) (hk : ¬ a.Held k) (hn : a.total < kvsArraySize)
    (hi : (i < a.total ∧ (a.table i).key = .null) ∨ i = a.total) :
    Keyed (a.filled i k v, insert k K) := by
  have hle : i ≤ a.total := by omega
  have hfree : i < a.total → (a.table i).key = .null := fun hlt => (hi.resolve_right hlt.ne).2
  refine ⟨h.tidy.fill hk hle hn, fun l => ?_⟩
  rw [held_filled h.tidy hk hle hfree, Finset.mem_insert, ← h.held l]

theorem Keyed.clear (h : Keyed (a, K)) (hi : a.table i = .live k v) :
    Keyed (a.cleared i, K.erase k) := by
  have hkey : (a.table i).key = .str k := by rw [hi]; rfl
  refine ⟨h.tidy.clear (h.tidy.live_of_key hkey).1, fun l => ?_⟩
  rw [held_cleared h.tidy hi, Finset.mem_erase, ← h.held l]

/-- A call in a roomy state comes back and keeps to the number of live keys. -/
theorem Keyed.edit {e : Edit} (h : Keyed (a, K)) (hc : a.Roomy e) :
    ∃ r s', edit (a, K) e = some (r, s') ∧ Lawful (a, K) e r ∧ Keyed s' := by
  cases e with
  | set k v =>
    by_cases hfull : a.total = kvsArraySize
    · rw [Roomy, if_pos hfull] at hc
      obtain ⟨hk, hpacked⟩ := hc
      refine ⟨-1, (a, K), ?_, ?_, h⟩
      · simp [KvsArray.edit, h.tidy.set_full hfull]
      · rw [Lawful, if_neg (mt (h.held k).mpr hk)]
        exact iff_of_true rfl (h.card_eq_iff.mpr hpacked)
    rw [Roomy, if_neg hfull] at hc
    obtain ⟨he, -⟩ | ⟨-, hk, hs⟩ | ⟨-, -, hno, -⟩ | ⟨hn, hk, -, -, i, hi, hs⟩ :=
      h.tidy.set_cases (m := ⟨true, true⟩) (v := v) hc
    · exact absurd he hfull
    · refine ⟨1, (a, K), by simp [KvsArray.edit, hs], ?_, h⟩
      rw [Lawful, if_pos ((h.held k).mp hk)]
    · exact absurd ⟨rfl, rfl⟩ hno
    · refine ⟨0, (a.filled i k v, insert k K), by simp [KvsArray.edit, hs], ?_,
        h.fill hk hn (hi.imp_right And.left)⟩
      rw [Lawful, if_neg (mt (h.held k).mpr hk)]
      have hle := h.card_le
      refine iff_of_false (by decide) fun hcard => ?_
      dsimp only at hn hcard
      omega
  | del k =>
    obtain ⟨i, w, -, hi, hs⟩ | ⟨hk, hs⟩ := h.tidy.del_cases hc
    · exact ⟨0, (a.cleared i, K.erase k), by simp [KvsArray.edit, hs], trivial, h.clear hi⟩
    · refine ⟨a.total, (a, K.erase k), by simp [KvsArray.edit, hs], trivial, ?_⟩
      rwa [Finset.erase_eq_of_notMem (mt (h.held k).mpr hk)]

/-- A call that comes back and keeps to the number of live keys was made in a roomy state. -/
theorem Keyed.roomy {e : Edit} {r : ℤ} {s' : KvsArray × Finset CString} (h : Keyed (a, K))
    (hr : KvsArray.edit (a, K) e = some (r, s')) (hlaw : Lawful (a, K) e r) : a.Roomy e := by
  cases e with
  | set k v =>
    obtain ⟨⟨code, a'⟩, hs, he⟩ := Option.map_eq_some_iff.mp hr
    cases he
    rw [Roomy]
    split_ifs with hfull
    · have hcode := hs.symm.trans (h.tidy.set_full hfull)
      cases hcode
      rw [Lawful] at hlaw
      by_cases hk : k ∈ K
      · rw [if_pos hk] at hlaw
        exact absurd (show (-1 : ℤ) = 1 from hlaw) (by decide)
      · rw [if_neg hk] at hlaw
        exact ⟨mt (h.held k).mp hk, h.card_eq_iff.mp (hlaw.mp rfl)⟩
    · rw [kvsArraySet_eq h.tidy.unlocked h.tidy.bound, if_neg hfull] at hs
      obtain ⟨found, hscan, -⟩ := Option.bind_eq_some_iff.mp hs
      exact unobstructed_of_scan h.tidy.bound hscan
  | del k =>
    obtain ⟨⟨code, a'⟩, hs, -⟩ := Option.map_eq_some_iff.mp hr
    rw [kvsArrayDel_eq h.tidy.unlocked] at hs
    obtain ⟨found, hscan, -⟩ := Option.bind_eq_some_iff.mp hs
    exact unobstructed_of_scan h.tidy.bound hscan

/-- Along a run of `set` and `del` calls from the empty array every call comes back and a `set`
answers by the number of live keys exactly when every call is made in a roomy state. -/
theorem kvsArraySet_capacity_iff (edits : List Edit) :
    Throughout edit (fun s e r _ => Lawful s e r) (kvsArrayCreate, ∅) edits ↔
      Allowed edit (fun s e => s.1.Roomy e) (kvsArrayCreate, ∅) edits := by
  refine throughout_iff (J := Keyed) ?_ ?_ .create edits
  · rintro ⟨a, K⟩ e h hc
    exact h.edit hc
  · rintro ⟨a, K⟩ e r s' h hr hlaw
    exact h.roomy hr hlaw

/-- The key of `n` letters. -/
def letters (n : ℕ) : CString := .read (List.replicate n 97)

theorem letters_injective : Function.Injective letters := by
  intro m n he
  have hlen : ∀ n, (letters n).bytes = List.replicate n 97 := by
    intro n
    apply List.takeWhile_eq_self_iff.mpr
    intro b hb
    rw [List.eq_of_mem_replicate hb]
    rfl
  have hbytes := congrArg (fun s : CString => s.bytes.length) he
  rwa [hlen, hlen, List.length_replicate, List.length_replicate] at hbytes

/-- The calls that fill the slots from number `n` on with a key each, and a last one for the key of
the first slot. -/
def filling (n : ℕ) : List Edit :=
  ((List.range' n (kvsArraySize - n)).map fun i => .set (letters i) .empty) ++
    [.set (letters 0) .empty]

theorem filling_succ (hn : n < kvsArraySize) :
    filling n = .set (letters n) .empty :: filling (n + 1) := by
  rw [filling, filling, ← Nat.succ_sub_one (kvsArraySize - n), Nat.succ_sub (by omega)]
  rfl

theorem not_lawful_filling (h : Keyed (a, K)) (hn : a.total = n) (hle : n ≤ kvsArraySize)
    (hkeys : ∀ i < n, (a.table i).key = .str (letters i)) :
    ¬ Throughout edit (fun s e r _ => Lawful s e r) (a, K) (filling n) := by
  induction hd : kvsArraySize - n generalizing n a K with
  | zero =>
    obtain rfl : n = kvsArraySize := by omega
    rintro ⟨r, s', hr, hlaw, -⟩
    have hk : letters 0 ∈ K := (h.held _).mp ⟨0, hn ▸ (by decide), hkeys 0 (by decide)⟩
    simp only [edit, h.tidy.set_full hn, Option.map_some, Option.some.injEq, Prod.mk.injEq] at hr
    rw [Lawful, if_pos hk, ← hr.1] at hlaw
    exact absurd hlaw (by decide)
  | succ d ih =>
    rw [filling_succ (by omega)]
    rintro ⟨r, s', hr, -, hrest⟩
    have hlive : ∀ i < a.total, (a.table i).key ≠ .uninit ∧ (a.table i).key ≠ .null := by
      intro i hi
      rw [hkeys i (hn ▸ hi)]
      simp
    have hu : Unobstructed true a (letters n) := fun i hi _ => ⟨(hlive i hi).1, by simp⟩
    have hk : ¬ a.Held (letters n) := by
      rintro ⟨i, hi, hkey⟩
      rw [hkeys i (hn ▸ hi), CharPtr.str.injEq] at hkey
      exact absurd (letters_injective hkey) (hn ▸ hi).ne
    obtain ⟨he, -⟩ | ⟨-, hk', -⟩ | ⟨-, -, hno, -⟩ | ⟨hlt, -, -, -, i, hi, hs⟩ :=
      h.tidy.set_cases (m := ⟨true, true⟩) (v := .empty) hu
    · have hlt : a.total < kvsArraySize := by omega
      exact absurd he hlt.ne
    · exact hk hk'
    · exact hno ⟨rfl, rfl⟩
    · obtain rfl : i = a.total := by
        obtain ⟨hi, hnull⟩ | ⟨hi, -⟩ := hi
        · exact absurd hnull (hlive i hi).2
        · exact hi
      simp only [edit, hs, Option.map_some, if_true, Option.some.injEq, Prod.mk.injEq] at hr
      obtain ⟨-, rfl⟩ := hr
      refine ih (h.fill hk hlt (.inr rfl)) (congrArg (· + 1) hn) (by omega) ?_ (by omega) hrest
      intro j hj
      dsimp only [filled, setItem]
      by_cases hjn : j = a.total
      · rw [hjn, Function.update_self, hn]
        rfl
      · rw [Function.update_of_ne hjn]
        exact hkeys j (by omega)

/-- A key that is there is refused once the table is full. -/
theorem kvsArraySet_refuses_present :
    ¬ Throughout edit (fun s e r _ => Lawful s e r) (kvsArrayCreate, ∅) (filling 0) :=
  not_lawful_filling .create rfl (by decide) fun i hi => absurd hi (Nat.not_lt_zero i)

end KvsArray
end KvStore
