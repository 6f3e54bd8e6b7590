import KvStore.Lib.OrderedMap
import KvStore.Skip.Agree
import KvStore.Skip.Members
import KvStore.Skip.Select

/-! The skip list as a sorted set: the values of its members by score and key, in this order. -/
namespace KvStore
open Levels Member Fuel

/-- The members of a sorted set, each with its value. -/
abbrev SortedSet (S : Type*) [LinearOrder S] := OrderedMap (S ×ₗ CString) CString

namespace SortedSet

variable {S : Type*} [LinearOrder S]

/-- The entries for a range of scores, cut to the sizes of their fields. -/
def range (M : SortedSet S) (min max : S) (count : ℕ) : List (ZRangeEntry S) :=
  ((M.toList.filter fun x => min ≤ (ofLex x.1).1 ∧ (ofLex x.1).1 ≤ max).take count).map fun x =>
    ⟨(ofLex x.1).2.truncate (maxKeyLen - 1), x.2.truncate (maxValueLen - 1), (ofLex x.1).1⟩

/-- A member with the key is there, those in front of it have smaller keys, and those behind it
not. -/
def Ascends (M : SortedSet S) (k : CString) : Prop :=
  ∃ pre s v post, M.toList = pre ++ (toLex (s, k), v) :: post ∧ (∀ x ∈ pre, (ofLex x.1).2 < k) ∧
    ∀ x ∈ post, k ≤ (ofLex x.1).2

end SortedSet

namespace SkipList

variable {S : Type*} [LinearOrder S] {L : SkipList S} {M : SortedSet S} {ns : List (Member S)}

def entry (x : Member S) : (S ×ₗ CString) × CString := (rank x, x.value)

variable [Zero S]

/-- The list keeps the members of the sorted set. -/
def Stands (L : SkipList S) (M : SortedSet S) : Prop := ∃ ns, L.Holds ns ∧ ns.map entry = M.toList

theorem Stands.create (nodes : Ptr → Option (SkipNode S)) {p : Ptr} (hp : p ≠ null) :
    (kvsSkiptableCreate nodes p).Stands .empty := ⟨[], .create nodes hp, rfl⟩

omit [Zero S] in
/-- Members stand in the order of their ranks around a new one. -/
theorem Sorted.around {pre post : List (Member S)} {x : Member S} (h : Sorted (pre ++ x :: post)) :
    (∀ y ∈ pre, rank y < rank x) ∧ ∀ y ∈ post, rank x < rank y := by
  rw [Sorted, List.pairwise_append, List.pairwise_cons] at h
  obtain ⟨-, ⟨hpost, -⟩, hpre⟩ := h
  exact ⟨fun y hy => hpre y hy x List.mem_cons_self, hpost⟩

/-- `kvs_skiptable_zadd` puts the value under score and key, and tells whether one was there. -/
theorem Stands.zadd (h : L.Stands M) {p : Ptr} {level : ℕ} (hp : L.Fresh p)
    (hlevel : level ≤ skipMaxLevel) (k v : CString) (score : S) : ∃ L',
    Returns (fun n => kvsSkiptableZadd n L p level k v score)
      (if (M.lookup (toLex (score, k))).isSome then 1 else 0, L') ∧
    L'.Stands (M.insert (toLex (score, k)) v) := by
  obtain ⟨ns, hns, hM⟩ := h
  obtain ⟨pre, post, L', ⟨c, rfl, rfl, rfl, hret, hL'⟩ | ⟨rfl, hno, hret, hL'⟩⟩ :=
    hns.zadd hp hlevel k v score
  · rw [List.map_append, List.map_cons] at hM
    have hthere : (M.lookup (toLex (c.score, c.key))).isSome := by
      rw [OrderedMap.lookup_isSome_iff, ← hM]
      exact ⟨c.value, by simp [entry, rank]⟩
    refine ⟨L', by rwa [if_pos hthere], _, hL', ?_⟩
    rw [List.map_append, List.map_cons]
    exact (OrderedMap.insert_of_mem hM.symm).symm
  · have habsent : ¬ (M.lookup (toLex (score, k))).isSome := by
      rw [OrderedMap.lookup_isSome_iff, ← hM]
      rintro ⟨u, hu⟩
      obtain ⟨x, hx, he⟩ := List.mem_map.mp hu
      have hrank : rank x = toLex (score, k) := congrArg Prod.fst he
      rw [rank, EmbeddingLike.apply_eq_iff_eq, Prod.mk.injEq] at hrank
      exact hno x hx hrank.1 hrank.2
    obtain ⟨hpre, hpost⟩ := hL'.sorted.around
    refine ⟨L', by rwa [if_neg habsent], _, hL', ?_⟩
    rw [List.map_append] at hM
    rw [List.map_append, List.map_cons]
    refine (OrderedMap.insert_of_between hM.symm ?_ ?_).symm
    · rintro x hx
      obtain ⟨y, hy, rfl⟩ := List.mem_map.mp hx
      exact hpre y hy
    · rintro x hx
      obtain ⟨y, hy, rfl⟩ := List.mem_map.mp hx
      exact hpost y hy

/-- `kvs_skiptable_zrem` removes one member with the key, or finds none, but not when the keys around
the member are in order. -/
theorem Stands.zrem (h : L.Stands M) (k : CString) :
    (∃ s L', (M.lookup (toLex (s, k))).isSome ∧ L'.Stands (M.erase (toLex (s, k))) ∧
      Returns (fun n => kvsSkiptableZrem n L k) (0, L')) ∨
    (¬ M.Ascends k ∧ Returns (fun n => kvsSkiptableZrem n L k) (-1, L)) := by
  obtain ⟨ns, hns, hM⟩ := h
  obtain ⟨pre, post, rfl, hpassed, hheld, ⟨c, post', L', rfl, rfl, hret, hL', -⟩ | ⟨hno, hret⟩⟩ :=
    hns.zrem k
  · rw [List.map_append, List.map_cons] at hM
    refine .inl ⟨c.score, L', ?_, ⟨_, hL', ?_⟩, hret⟩
    · rw [OrderedMap.lookup_isSome_iff, ← hM]
      exact ⟨c.value, by simp [entry, rank]⟩
    · rw [List.map_append]
      exact (OrderedMap.erase_of_mem hM.symm).symm
  · refine .inr ⟨?_, hret⟩
    rintro ⟨pre', s, v, post', hl, hpre, hpost⟩
    rw [← hM] at hl
    obtain ⟨ms, ms', hms, rfl, hms'⟩ := List.map_eq_append_iff.mp hl
    obtain ⟨c, qs, rfl, hc, rfl⟩ := List.map_eq_cons_iff.mp hms'
    have hkey : c.key = k := congrArg (fun x => (ofLex x.1).2) hc
    -- no key up to this member stops the search, and none behind it lets it go on
    have hp' : Passed (fun x : Member S => x.key < k) height ms := by
      rintro a n b rfl hn
      exact absurd (hpre (entry n) (by simp)) hn
    have hh' : Held (fun x : Member S => x.key < k) height (c :: qs) := by
      intro a d b hab hd
      exfalso
      have hmem : d ∈ c :: qs := hab ▸ by simp
      obtain rfl | hmem := List.mem_cons.mp hmem
      · exact hd.ne hkey
      · exact (hpost (entry d) (List.mem_map_of_mem hmem)).not_gt hd
    obtain ⟨-, rfl⟩ := place_unique hms hpassed hheld hp' hh'
    exact hno c rfl hkey

/-- `kvs_skiptable_zrange_entries` lists the members of the range. -/
theorem Stands.zrange (h : L.Stands M) (min max : S) (count : ℕ) :
    Returns (fun n => kvsSkiptableZrangeEntries n L min max count) (M.range min max count) := by
  obtain ⟨ns, hns, hM⟩ := h
  have hrange : M.range min max count =
      ((ns.filter fun x => min ≤ x.score ∧ x.score ≤ max).take count).map entryOf := by
    rw [SortedSet.range, ← hM, List.filter_map, ← List.map_take, List.map_map]
    rfl
  rw [hrange]
  exact hns.wellFormed.zrange min max count

end SkipList
end KvStore
