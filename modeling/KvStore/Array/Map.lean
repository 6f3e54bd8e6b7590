import KvStore.Array.Slots

/-! The array engine as a finite map. A call answers as the map does exactly when its scan meets
no unwritten slot (and no hole, in `kvs_array_del`), its copies get memory, and no key is deleted
from an array without slots. -/
namespace KvStore
open KeyValue Guarded

namespace KvsArray

variable {a a' : KvsArray} {m m' : CString → Option CString} {k v w : CString} {i : ℕ}
  {q : Request} {r : Reply CharPtr}

/-- The live pairs are the entries of the map. -/
def Stores (a : KvsArray) (m : CString → Option CString) : Prop :=
  ∀ k v, m k = some v ↔ ∃ i, a.table i = .live k v

theorem Stores.held_iff (hm : a.Stores m) (ha : a.Tidy) : a.Held k ↔ (m k).isSome := by
  rw [Option.isSome_iff_exists]
  constructor
  · rintro ⟨i, -, hk⟩
    obtain ⟨-, v, hv⟩ := ha.live_of_key hk
    exact ⟨v, (hm k v).mpr ⟨i, hv⟩⟩
  · rintro ⟨v, hv⟩
    obtain ⟨i, hi⟩ := (hm k v).mp hv
    have hk : (a.table i).key = .str k := by rw [hi]; rfl
    exact ⟨i, (ha.live_of_key hk).1, hk⟩

/-- A slot that held no other key than `k` is overwritten. -/
theorem Stores.update (hm : a.Stores m) {x : ArrayItem}
    (ht : a'.table = Function.update a.table i x)
    (hold : ∀ j, (a.table j).key = .str k → j = i)
    (hi : ∀ k' v', a.table i = .live k' v' → k' = k)
    {y : Option CString} (hx : ∀ k' v', x = .live k' v' ↔ k' = k ∧ y = some v') :
    a'.Stores (Function.update m k y) := by
  intro k' v'
  rw [ht]
  by_cases hk : k' = k
  · subst hk
    rw [Function.update_self]
    constructor
    · intro hy
      exact ⟨i, by rw [Function.update_self]; exact (hx k' v').mpr ⟨rfl, hy⟩⟩
    · rintro ⟨j, hj⟩
      by_cases hji : j = i
      · rw [hji, Function.update_self] at hj
        exact ((hx k' v').mp hj).2
      · rw [Function.update_of_ne hji] at hj
        exact absurd (hold j (by rw [hj]; rfl)) hji
  · rw [Function.update_of_ne hk, hm k' v']
    constructor
    · rintro ⟨j, hj⟩
      have hji : j ≠ i := fun he => hk (hi k' v' (he ▸ hj))
      exact ⟨j, by rwa [Function.update_of_ne hji]⟩
    · rintro ⟨j, hj⟩
      by_cases hji : j = i
      · rw [hji, Function.update_self] at hj
        exact absurd ((hx k' v').mp hj).1 hk
      · rw [Function.update_of_ne hji] at hj
        exact ⟨j, hj⟩

theorem live_eq_live {k' v' : CString} :
    ArrayItem.live k v = .live k' v' ↔ k' = k ∧ some v = some v' := by
  simp [ArrayItem.live, eq_comm]

theorem Stores.fill (hm : a.Stores m) (ha : a.Tidy) (hk : ¬ a.Held k)
    (hi : ∀ k' v', a.table i ≠ .live k' v') :
    (a.filled i k v).Stores (Function.update m k (some v)) := by
  apply hm.update (i := i) (x := .live k v) rfl ?_ ?_ (fun _ _ => live_eq_live)
  · intro j hj
    exact absurd ⟨j, (ha.live_of_key hj).1, hj⟩ hk
  · intro k' v' h
    exact absurd h (hi k' v')

theorem Stores.replace (hm : a.Stores m) (ha : a.Tidy) (hi : a.table i = .live k w) :
    (a.setItem i (.live k v)).Stores (Function.update m k (some v)) := by
  apply hm.update (i := i) (x := .live k v) rfl ?_ ?_ (fun _ _ => live_eq_live)
  · intro j hj
    exact ha.distinct j i k hj (by rw [hi]; rfl)
  · intro k' v' h
    rw [hi] at h
    exact (live_eq_live.mp h).1

theorem Stores.clear (hm : a.Stores m) (ha : a.Tidy) (hi : a.table i = .live k w) :
    (a.cleared i).Stores (Function.update m k none) := by
  apply hm.update (i := i) (x := .hole) rfl
  · intro j hj
    exact ha.distinct j i k hj (by rw [hi]; rfl)
  · intro k' v' h
    rw [hi] at h
    exact (live_eq_live.mp h).1
  · intro k' v'
    simp [ArrayItem.hole, ArrayItem.live]

/-- What a call makes of the map; a full table refuses every `set`. -/
def follow (a : KvsArray) (m : CString → Option CString) :
    Call CString CString → CString → Option CString
  | .set k v => if a.total = kvsArraySize then m else next m (.set k v)
  | c => next m c

/-- A call of the engine, with the map kept beside it. -/
def tracked (s : KvsArray × (CString → Option CString)) (q : Request) :
    Option (Reply CharPtr × KvsArray × (CString → Option CString)) :=
  (s.1.call q).map fun r => (r.1, r.2, follow s.1 s.2 q.call)

/-- The reply that the map asks for, the error for a full table apart. -/
def Answers (a : KvsArray) (m : CString → Option CString) (r : Reply CharPtr) :
    Call CString CString → Prop
  | .set k _ =>
    r = .status (if a.total = kvsArraySize then -1 else if (m k).isSome then 1 else 0)
  | .get k => r = .value ((m k).elim .null .str)
  | .mod k _ => ∃ c, r = .status c ∧ if (m k).isSome then c = 0 else 0 < c
  | .del k => ∃ c, r = .status c ∧ if (m k).isSome then c = 0 else 0 < c
  | .exist k => r = .status (if (m k).isSome then 0 else 1)

/-- The reply is that of the map, and the array stores the map that follows. -/
def Refines (s : KvsArray × (CString → Option CString)) (q : Request) (r : Reply CharPtr)
    (s' : KvsArray × (CString → Option CString)) : Prop :=
  Answers s.1 s.2 r q.call ∧ s'.1.Stores s'.2

/-- The scan of the call is not obstructed, its copies get memory, and a key that is absent is
deleted only while some slot is in use. -/
def Steady (s : KvsArray × (CString → Option CString)) (q : Request) : Prop :=
  match q.call with
  | .set k _ => s.1.total < kvsArraySize → Unobstructed true s.1 k ∧
      (¬ s.1.Held k → q.room.key = true ∧ q.room.value = true)
  | .get k => Unobstructed true s.1 k
  | .mod k _ => Unobstructed true s.1 k ∧ (s.1.Held k → q.room.value = true)
  | .del k => Unobstructed false s.1 k ∧ (¬ s.1.Held k → 0 < s.1.total)
  | .exist k => Unobstructed true s.1 k

/-- The invariant of the runs. -/
def Tracks (s : KvsArray × (CString → Option CString)) : Prop := s.1.Tidy ∧ s.1.Stores s.2

theorem tracked_of_call (h : a.call q = some (r, a')) :
    tracked (a, m) q = some (r, a', follow a m q.call) := by
  simp [tracked, h]

theorem Tidy.set_full (ha : a.Tidy) {p : ArrayAlloc} (hfull : a.total = kvsArraySize) :
    kvsArraySet a p (some k) (some v) = some (-1, a) := by
  rw [kvsArraySet_eq ha.unlocked ha.bound, if_pos hfull]

/-- Deleting a key that is not there. -/
theorem Stores.absent (hm : a.Stores m) (ha : a.Tidy) (hk : ¬ a.Held k) :
    Function.update m k none = m := by
  rw [hm.held_iff ha, Option.not_isSome_iff_eq_none] at hk
  rw [← hk, Function.update_eq_self]

theorem Tracks.set {p : ArrayAlloc} (ha : a.Tidy) (hm : a.Stores m)
    (hc : Steady (a, m) ⟨p, .set k v⟩) :
    ∃ c a', kvsArraySet a p (some k) (some v) = some (c, a') ∧
      Answers a m (.status c) (.set k v) ∧ a'.Tidy ∧ a'.Stores (follow a m (.set k v)) := by
  by_cases hfull : a.total = kvsArraySize
  · refine ⟨-1, a, ha.set_full hfull, by simp [Answers, hfull], ha, ?_⟩
    rwa [follow, if_pos hfull]
  obtain ⟨hu, hroom⟩ := hc (lt_of_le_of_ne ha.bound hfull)
  rw [follow, if_neg hfull]
  obtain ⟨he, -⟩ | ⟨-, hk, hs⟩ | ⟨-, hk, hp, -⟩ | ⟨hn, hk, -, -, i, hi, hs⟩ :=
    ha.set_cases (m := p) (v := v) hu
  · exact absurd he hfull
  · have hsome := (hm.held_iff ha).mp hk
    refine ⟨1, a, hs, by simp [Answers, hfull, hsome], ha, ?_⟩
    rwa [next, if_pos hsome]
  · exact absurd (hroom hk) hp
  · have hsome := (hm.held_iff ha).not.mp hk
    refine ⟨0, a.filled i k v, hs, by simp [Answers, hfull, hsome], ha.fill hk (by omega) hn, ?_⟩
    rw [next, if_neg hsome]
    apply hm.fill ha hk
    intro k' v' hlive
    obtain ⟨-, hnull⟩ | ⟨he, -⟩ := hi
    · simp [hlive, ArrayItem.live] at hnull
    · have hlt := (ha.live_of_key (i := i) (k := k') (by rw [hlive]; rfl)).1
      omega

theorem Tracks.mod {b : Bool} (ha : a.Tidy) (hm : a.Stores m) (hu : Unobstructed true a k)
    (hb : a.Held k → b = true) :
    ∃ c a', kvsArrayMod a b (some k) (some v) = some (c, a') ∧
      Answers a m (.status c) (.mod k v) ∧ a'.Tidy ∧ a'.Stores (next m (.mod k v)) := by
  obtain ⟨i, w, hi, hlive, -, hs⟩ | ⟨i, w, hi, hlive, hno, -⟩ | ⟨hk, c, hc, hs⟩ :=
    ha.mod_cases (b := b) (v := v) hu
  · have hsome := (hm.held_iff ha).mp ⟨i, hi, by rw [hlive]; rfl⟩
    refine ⟨0, a.setItem i (.live k v), hs, ⟨0, rfl, by simp [hsome]⟩, ha.replace hlive, ?_⟩
    rw [next, if_pos hsome]
    exact hm.replace ha hlive
  · rw [hb ⟨i, hi, by rw [hlive]; rfl⟩] at hno
    cases hno
  · have hsome := (hm.held_iff ha).not.mp hk
    refine ⟨c, a, hs, ⟨c, rfl, by simpa [hsome] using hc⟩, ha, ?_⟩
    rwa [next, if_neg hsome]

theorem Tracks.del (ha : a.Tidy) (hm : a.Stores m) (hu : Unobstructed false a k)
    (hn : ¬ a.Held k → 0 < a.total) :
    ∃ c a', kvsArrayDel a (some k) = some (c, a') ∧
      Answers a m (.status c) (.del k) ∧ a'.Tidy ∧ a'.Stores (next m (.del k)) := by
  obtain ⟨i, w, hi, hlive, hs⟩ | ⟨hk, hs⟩ := ha.del_cases hu
  · have hsome := (hm.held_iff ha).mp ⟨i, hi, by rw [hlive]; rfl⟩
    exact ⟨0, a.cleared i, hs, ⟨0, rfl, by simp [hsome]⟩, ha.clear hi, hm.clear ha hlive⟩
  · have hsome := (hm.held_iff ha).not.mp hk
    refine ⟨a.total, a, hs, ⟨a.total, rfl, by simpa [hsome] using hn hk⟩, ha, ?_⟩
    rwa [next, hm.absent ha hk]

theorem Tracks.get (ha : a.Tidy) (hm : a.Stores m) (hu : Unobstructed true a k) :
    kvsArrayGet a (some k) = some ((m k).elim .null .str, a) := by
  obtain ⟨i, w, hi, hlive, hs⟩ | ⟨hk, hs⟩ := ha.get_cases hu
  · rw [hs, (hm k w).mpr ⟨i, hlive⟩]
    rfl
  · rw [hm.held_iff ha, Option.not_isSome_iff_eq_none] at hk
    rw [hs, hk]
    rfl

theorem Tracks.exist (ha : a.Tidy) (hm : a.Stores m) (hu : Unobstructed true a k) :
    kvsArrayExist a (some k) = some (if (m k).isSome then 0 else 1, a) := by
  obtain ⟨hk, hs⟩ | ⟨hk, hs⟩ := ha.exist_cases hu
  · rw [hs, if_pos ((hm.held_iff ha).mp hk)]
  · rw [hs, if_neg ((hm.held_iff ha).not.mp hk)]

/-- A steady call answers as the map does and keeps up with it. -/
theorem Tracks.call (ha : a.Tidy) (hm : a.Stores m) (hc : Steady (a, m) q) :
    ∃ r a', a.call q = some (r, a') ∧ Answers a m r q.call ∧ a'.Tidy ∧
      a'.Stores (follow a m q.call) := by
  obtain ⟨p, c⟩ := q
  cases c with
  | set k v =>
    obtain ⟨c, a', hs, hans, ha', hm'⟩ := Tracks.set ha hm hc
    exact ⟨.status c, a', by simp [KvsArray.call, hs], hans, ha', hm'⟩
  | get k =>
    have hs := Tracks.get ha hm hc
    exact ⟨.value ((m k).elim .null .str), a, by simp [KvsArray.call, hs], rfl, ha, hm⟩
  | mod k v =>
    obtain ⟨c, a', hs, hans, ha', hm'⟩ := Tracks.mod (v := v) (b := p.value) ha hm hc.1 hc.2
    exact ⟨.status c, a', by simp [KvsArray.call, hs], hans, ha', hm'⟩
  | del k =>
    obtain ⟨c, a', hs, hans, ha', hm'⟩ := Tracks.del ha hm hc.1 hc.2
    exact ⟨.status c, a', by simp [KvsArray.call, hs], hans, ha', hm'⟩
  | exist k =>
    have hs := Tracks.exist ha hm hc
    exact ⟨.status (if (m k).isSome then 0 else 1), a, by simp [KvsArray.call, hs], rfl, ha, hm⟩

/-- A call that comes back behind a scan had nothing in its way. -/
theorem unobstructed_of_bind {α β : Type*} {b : Bool} {k : CString} {f : Option ℕ → Option α}
    {g : α → β} {x : β} (hb : a.total ≤ kvsArraySize)
    (h : ((scan b a.table k 0 a.total).bind f).map g = some x) : Unobstructed b a k := by
  obtain ⟨y, hy, -⟩ := Option.map_eq_some_iff.mp h
  obtain ⟨found, hs, -⟩ := Option.bind_eq_some_iff.mp hy
  exact unobstructed_of_scan hb hs

/-- A call with another reply than the map's is not steady. -/
theorem Tracks.steady (ha : a.Tidy) (hm : a.Stores m) (hr : a.call q = some (r, a'))
    (hans : Answers a m r q.call) : Steady (a, m) q := by
  obtain ⟨p, c⟩ := q
  cases c with
  | set k v =>
    intro hn
    have hfull : a.total ≠ kvsArraySize := by
      dsimp only at hn
      omega
    have hu : Unobstructed true a k := by
      simp only [KvsArray.call, kvsArraySet_eq ha.unlocked ha.bound, if_neg hfull] at hr
      exact unobstructed_of_bind ha.bound hr
    refine ⟨hu, ?_⟩
    intro hk
    by_contra hp
    obtain ⟨he, -⟩ | ⟨-, hk', -⟩ | ⟨-, -, -, hs⟩ | ⟨-, -, hp₁, hp₂, -⟩ :=
      ha.set_cases (m := p) (v := v) hu
    · exact hfull he
    · exact hk hk'
    · have hsome := (hm.held_iff ha).not.mp hk
      simp only [KvsArray.call, hs, Option.map_some, Option.some.injEq, Prod.mk.injEq] at hr
      rw [← hr.1] at hans
      simp [Answers, hfull, hsome] at hans
    · exact hp ⟨hp₁, hp₂⟩
  | get k =>
    simp only [KvsArray.call, kvsArrayGet_eq ha.unlocked, Option.map_map] at hr
    obtain ⟨found, hs, -⟩ := Option.map_eq_some_iff.mp hr
    exact unobstructed_of_scan ha.bound hs
  | mod k v =>
    have hu : Unobstructed true a k := by
      by_cases hn : a.total = 0
      · intro i hi
        omega
      simp only [KvsArray.call, kvsArrayMod_eq ha.unlocked, if_neg hn] at hr
      exact unobstructed_of_bind ha.bound hr
    refine ⟨hu, ?_⟩
    intro hk
    obtain ⟨-, -, -, -, hb, -⟩ | ⟨i, w, hi, hlive, -, hs⟩ | ⟨hk', -⟩ :=
      ha.mod_cases (b := p.value) (v := v) hu
    · exact hb
    · have hsome := (hm.held_iff ha).mp hk
      simp only [KvsArray.call, hs, Option.map_some, Option.some.injEq, Prod.mk.injEq] at hr
      obtain ⟨c, hc, hzero⟩ := hans
      rw [if_pos hsome] at hzero
      rw [← hr.1, hzero] at hc
      cases hc
    · exact absurd hk hk'
  | del k =>
    have hu : Unobstructed false a k := by
      simp only [KvsArray.call, kvsArrayDel_eq ha.unlocked] at hr
      exact unobstructed_of_bind ha.bound hr
    refine ⟨hu, ?_⟩
    intro hk
    obtain ⟨i, w, hi, hlive, -⟩ | ⟨-, hs⟩ := ha.del_cases hu
    · exact absurd ⟨i, hi, by rw [hlive]; rfl⟩ hk
    · have hsome := (hm.held_iff ha).not.mp hk
      simp only [KvsArray.call, hs, Option.map_some, Option.some.injEq, Prod.mk.injEq] at hr
      obtain ⟨c, hc, hpos⟩ := hans
      rw [if_neg hsome] at hpos
      rw [← hr.1] at hc
      cases hc
      exact_mod_cast hpos
  | exist k =>
    simp only [KvsArray.call, kvsArrayExist_eq ha.unlocked, Option.map_map] at hr
    obtain ⟨found, hs, -⟩ := Option.map_eq_some_iff.mp hr
    exact unobstructed_of_scan ha.bound hs

/-- Along a run from the empty array every call comes back with the reply of a finite map, whose
entries the array stores, exactly when every call is steady. -/
theorem kvsArray_refines_map_iff (qs : List Request) :
    Throughout tracked Refines (kvsArrayCreate, fun _ => none) qs ↔
      Allowed tracked Steady (kvsArrayCreate, fun _ => none) qs := by
  have hcreate : Tracks (kvsArrayCreate, fun _ => none) := by
    refine ⟨.create, ?_⟩
    intro k v
    simp [kvsArrayCreate, ArrayItem.unwritten, ArrayItem.live]
  refine throughout_iff ?_ ?_ hcreate qs
  · rintro ⟨a, m⟩ q ⟨ha, hm⟩ hc
    obtain ⟨r, a', hr, hans, ha', hm'⟩ := Tracks.call ha hm hc
    exact ⟨r, (a', follow a m q.call), tracked_of_call hr, ⟨hans, hm'⟩, ha', hm'⟩
  · rintro ⟨a, m⟩ q r ⟨a', m'⟩ ⟨ha, hm⟩ hr ⟨hans, -⟩
    obtain ⟨⟨r₁, a₁⟩, hcall, he⟩ := Option.map_eq_some_iff.mp hr
    cases he
    exact Tracks.steady ha hm hcall hans

/-- The empty array answers 0 to the deletion of a key that it does not hold. -/
theorem kvsArrayDel_empty_succeeds :
    ¬ Throughout tracked Refines (kvsArrayCreate, fun _ => none) [⟨⟨true, true⟩, .del .empty⟩] := by
  rintro ⟨r, s, hr, ⟨⟨c, hc, hpos⟩, -⟩, -⟩
  cases hr
  cases hc
  exact absurd hpos (by decide)

end KvsArray
end KvStore
