import KvStore.Array.Slots

/-! When the slots below `total` are all written. A hole that is filled again moves `total`
over a slot that may never have been written, and `kvs_array_del` compares with the `NULL` key of
a hole; the calls that do neither keep every slot below `total` a live pair or a hole. -/
namespace KvStore
open KeyValue Guarded

namespace KvsArray

variable {a a' : KvsArray} {k v : CString} {i j n : ℕ} {b : Bool} {m : ArrayAlloc} {q : Request}

/-- `total` fits the table, and every slot below it is a live pair or a hole. -/
structure Sound (a : KvsArray) : Prop where
  bound : a.total ≤ kvsArraySize
  slots : ∀ i < a.total, a.table i = .hole ∨ ∃ k v, a.table i = .live k v

/-- A `set` that fills a hole again finds the slot behind the last one written already, a `del`
meets no hole before its key, and a `mod` of a key that is there gets memory. -/
def Careful (a : KvsArray) (q : Request) : Prop :=
  match q.call with
  | .set k _ => ¬ a.Held k → a.total < kvsArraySize → q.room.key = true → q.room.value = true →
      (∃ i < a.total, (a.table i).key = .null) → (a.table a.total).key ≠ .uninit
  | .get _ => True
  | .mod k _ => a.Held k → q.room.value = true
  | .del k => Unobstructed false a k
  | .exist _ => True

/-- The invariant of the runs: no slot below `total` is unwritten. -/
structure Written (a : KvsArray) : Prop extends Tidy a where
  written : ∀ i < a.total, a.table i ≠ .unwritten

theorem Written.sound (ha : a.Written) : a.Sound := by
  refine ⟨ha.bound, ?_⟩
  intro i hi
  obtain h | h | ⟨-, h⟩ := ha.slots i
  · exact absurd h (ha.written i hi)
  · exact .inl h
  · exact .inr h

theorem Sound.key_ne_uninit (ha : a.Sound) (hi : i < a.total) : (a.table i).key ≠ .uninit := by
  obtain h | ⟨k, v, h⟩ := ha.slots i hi
  · simp [h, ArrayItem.hole]
  · simp [h, ArrayItem.live]

theorem Written.unobstructed (ha : a.Written) (k : CString) : Unobstructed true a k :=
  fun _ hi _ => ⟨ha.sound.key_ne_uninit hi, by simp⟩

/-- A change of one slot to a written one keeps the invariant when the slots that come to stand
below the new `total` were written. -/
theorem Written.update (ha : a.Written) {x : ArrayItem} (hx : x ≠ .unwritten)
    (ht : a'.table = Function.update a.table i x) (ha' : a'.Tidy)
    (hnew : ∀ j < a'.total, j ≠ i → a.total ≤ j → a.table j ≠ .unwritten) : a'.Written := by
  refine ⟨ha', ?_⟩
  intro j hj
  rw [ht]
  by_cases hji : j = i
  · rwa [hji, Function.update_self]
  · rw [Function.update_of_ne hji]
    by_cases hjt : j < a.total
    · exact ha.written j hjt
    · exact hnew j hj hji (by omega)

theorem Written.fill (ha : a.Written) (hk : ¬ a.Held k) (hi : i ≤ a.total)
    (hn : a.total < kvsArraySize) (hlast : i < a.total → a.table a.total ≠ .unwritten) :
    (a.filled i k v).Written := by
  apply ha.update (x := .live k v) (by simp [ArrayItem.live, ArrayItem.unwritten]) rfl
    (ha.toTidy.fill hk hi hn)
  intro j hj hji hjt
  dsimp only [filled] at hj
  have he : j = a.total := by omega
  rw [he]
  apply hlast
  omega

theorem Written.clear (ha : a.Written) (hi : i < a.total) : (a.cleared i).Written := by
  apply ha.update (x := .hole) (by simp [ArrayItem.hole, ArrayItem.unwritten]) rfl
    (ha.toTidy.clear hi)
  intro j hj hji hjt
  have hle := (total_cleared hi).1
  omega

theorem Written.replace {w : CString} (ha : a.Written) (hi : a.table i = .live k w) :
    Written (a.setItem i (.live k v)) := by
  apply ha.update (x := .live k v) (by simp [ArrayItem.live, ArrayItem.unwritten]) rfl
    (ha.toTidy.replace hi)
  intro j hj hji hjt
  dsimp only [setItem] at hj
  omega

theorem Written.call (ha : a.Written) (hc : a.Careful q) :
    ∃ r a', a.call q = some (r, a') ∧ a'.Written := by
  obtain ⟨m, c⟩ := q
  cases c with
  | set k v =>
    obtain ⟨-, hs⟩ | ⟨-, -, hs⟩ | ⟨-, -, -, hs⟩ | ⟨hn, hk, hmk, hmv, i, hi, hs⟩ :=
      ha.set_cases (m := m) (v := v) (ha.unobstructed k)
    · exact ⟨.status (-1), a, by simp [KvsArray.call, hs], ha⟩
    · exact ⟨.status 1, a, by simp [KvsArray.call, hs], ha⟩
    · exact ⟨.status (-2), a, by simp [KvsArray.call, hs], ha⟩
    · refine ⟨.status 0, a.filled i k v, by simp [KvsArray.call, hs], ha.fill hk (by omega) hn ?_⟩
      intro hlt hun
      obtain ⟨-, hnull⟩ | ⟨he, -⟩ := hi
      · exact hc hk hn hmk hmv ⟨i, hlt, hnull⟩ (by rw [hun]; rfl)
      · omega
  | get k =>
    obtain ⟨i, v, -, -, hs⟩ | ⟨-, hs⟩ := ha.get_cases (ha.unobstructed k)
    · exact ⟨.value (.str v), a, by simp [KvsArray.call, hs], ha⟩
    · exact ⟨.value .null, a, by simp [KvsArray.call, hs], ha⟩
  | mod k v =>
    obtain ⟨i, w, hi, hlive, -, hs⟩ | ⟨i, w, hi, hlive, hb, -⟩ | ⟨-, c, -, hs⟩ :=
      ha.mod_cases (b := m.value) (v := v) (ha.unobstructed k)
    · exact ⟨.status 0, a.setItem i (.live k v), by simp [KvsArray.call, hs], ha.replace hlive⟩
    · have hroom : m.value = true := hc ⟨i, hi, by rw [hlive]; rfl⟩
      rw [hb] at hroom
      cases hroom
    · exact ⟨.status c, a, by simp [KvsArray.call, hs], ha⟩
  | del k =>
    obtain ⟨i, w, hi, -, hs⟩ | ⟨-, hs⟩ := ha.del_cases hc
    · exact ⟨.status 0, a.cleared i, by simp [KvsArray.call, hs], ha.clear hi⟩
    · exact ⟨.status a.total, a, by simp [KvsArray.call, hs], ha⟩
  | exist k =>
    obtain ⟨-, hs⟩ | ⟨-, hs⟩ := ha.exist_cases (ha.unobstructed k)
    · exact ⟨.status 0, a, by simp [KvsArray.call, hs], ha⟩
    · exact ⟨.status 1, a, by simp [KvsArray.call, hs], ha⟩

/-- A call that is not careful fails to come back or leaves a slot unsound. -/
theorem Written.careful (ha : a.Written) {r : Reply CharPtr} (hr : a.call q = some (r, a'))
    (hs' : a'.Sound) : a.Careful q := by
  obtain ⟨m, c⟩ := q
  cases c with
  | set k v =>
    intro hk hn hmk hmv ⟨l, hl, hnull⟩
    obtain ⟨hfull, -⟩ | ⟨-, hk', -⟩ | ⟨-, -, hm, -⟩ | ⟨-, -, -, -, i, hi, hs⟩ :=
      ha.set_cases (m := m) (v := v) (ha.unobstructed k)
    · omega
    · exact absurd hk' hk
    · exact absurd ⟨hmk, hmv⟩ hm
    · obtain ⟨hlt, -⟩ | ⟨-, hno⟩ := hi
      · simp only [KvsArray.call, hs, Option.map_some, Option.some.injEq, Prod.mk.injEq] at hr
        obtain ⟨-, rfl⟩ := hr
        have hu := hs'.key_ne_uninit (i := a.total) (by simp [filled])
        dsimp only [filled, setItem] at hu
        rwa [Function.update_of_ne (by omega)] at hu
      · exact absurd hnull (hno l hl)
  | get k => trivial
  | mod k v =>
    rintro ⟨l, hl, hkey⟩
    obtain ⟨-, -, -, -, hb, -⟩ | ⟨i, w, hi, hlive, -, hs⟩ | ⟨hk, -⟩ :=
      ha.mod_cases (b := m.value) (v := v) (ha.unobstructed k)
    · exact hb
    · simp only [KvsArray.call, hs, Option.map_some, Option.some.injEq, Prod.mk.injEq] at hr
      obtain ⟨-, rfl⟩ := hr
      obtain h | ⟨k', v', h⟩ := hs'.slots i hi
      · simp [setItem, ArrayItem.hole] at h
      · simp [setItem, ArrayItem.live] at h
    · exact absurd ⟨l, hl, hkey⟩ hk
  | del k =>
    simp only [KvsArray.call, kvsArrayDel_eq ha.unlocked] at hr
    cases hs : scan false a.table k 0 a.total with
    | none => simp [hs] at hr
    | some found => exact unobstructed_of_scan ha.bound hs
  | exist k => trivial

/-- A run from the empty array comes back from every call and keeps every slot below `total` a
live pair or a hole exactly when every call of it is careful. -/
theorem kvsArray_sound_iff (qs : List Request) :
    Throughout KvsArray.call (fun _ _ _ a' => a'.Sound) kvsArrayCreate qs ↔
      Allowed KvsArray.call Careful kvsArrayCreate qs := by
  have hcreate : kvsArrayCreate.Written := by
    refine ⟨.create, ?_⟩
    intro i hi
    exact absurd hi (Nat.not_lt_zero i)
  refine throughout_iff ?_ ?_ hcreate qs
  · intro a q ha hc
    obtain ⟨r, a', hr, ha'⟩ := ha.call hc
    exact ⟨r, a', hr, ha'.sound, ha'⟩
  · intro a q r a' ha hr hs'
    exact ha.careful hr hs'

/-- After two keys were set and the first of them deleted, a third key takes the hole, and slot 2
stands below `total` without having been written. -/
theorem kvsArraySet_counts_unwritten :
    ¬ Throughout KvsArray.call (fun _ _ _ a' => a'.Sound) kvsArrayCreate
      [⟨⟨true, true⟩, .set (.read [97]) .empty⟩, ⟨⟨true, true⟩, .set (.read [98]) .empty⟩,
        ⟨⟨true, true⟩, .del (.read [97])⟩, ⟨⟨true, true⟩, .set (.read [99]) .empty⟩] := by
  rintro ⟨r₁, a₁, h₁, -, r₂, a₂, h₂, -, r₃, a₃, h₃, -, r₄, a₄, h₄, hs, -⟩
  cases h₁
  cases h₂
  cases h₃
  cases h₄
  exact hs.key_ne_uninit (i := 2) (by decide) (by decide)

end KvsArray
end KvStore
