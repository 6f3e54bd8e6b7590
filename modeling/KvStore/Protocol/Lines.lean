import KvStore.Protocol.Mutex
import KvStore.Skip.Select

/-! The text of a `ZRANGE` reply. The line that does not fit the buffer is cut off, and what was
written of it is in the reply. -/
namespace KvStore
open SkipList

variable {S : Type*} {P : Scores S} {e : ZRangeEntry S} {es : List (ZRangeEntry S)}
  {result : List UInt8}

variable (P) in
/-- The number of bytes that the lines of the entries take: two spaces and a newline in each. -/
def linesLength (es : List (ZRangeEntry S)) : ℕ :=
  (es.map fun e => e.key.length + e.value.length + (P.format e.score).length + 3).sum

variable (P) in
/-- All lines fit the buffer, or some first of them fill it up to the NUL. -/
def LinesFit (es : List (ZRangeEntry S)) : Prop :=
  linesLength P es < resultSize ∨ ∃ k < es.length, linesLength P (es.take k) = resultSize - 1

variable (P) in
/-- The text consists of the complete lines of some first entries. -/
def WholeLines (es : List (ZRangeEntry S)) (reply : List UInt8) : Prop :=
  ∃ k ≤ es.length, reply = (es.take k).flatMap (zrangeLine P)

theorem length_zrangeLine (e : ZRangeEntry S) :
    (zrangeLine P e).length = e.key.length + e.value.length + (P.format e.score).length + 3 := by
  simp only [zrangeLine, CString.length, List.length_append, List.length_cons, List.length_nil]
  omega

theorem length_flatMap_zrangeLine (es : List (ZRangeEntry S)) :
    (es.flatMap (zrangeLine P)).length = linesLength P es := by
  rw [List.length_flatMap, linesLength]
  exact congrArg List.sum (List.map_congr_left fun e _ => length_zrangeLine e)

theorem linesLength_append (es es' : List (ZRangeEntry S)) :
    linesLength P (es ++ es') = linesLength P es + linesLength P es' := by
  rw [linesLength, List.map_append, List.sum_append]
  rfl

theorem linesLength_cons (e : ZRangeEntry S) (es : List (ZRangeEntry S)) :
    linesLength P (e :: es) = (zrangeLine P e).length + linesLength P es := by
  rw [length_zrangeLine]
  rfl

theorem linesLength_take_le (es : List (ZRangeEntry S)) (k : ℕ) :
    linesLength P (es.take k) ≤ linesLength P es := by
  have h := linesLength_append (P := P) (es.take k) (es.drop k)
  rw [List.take_append_drop] at h
  omega

/-- The loop takes the lines as long as they fit, and a part of the first that does not. -/
theorem zrangeText_cases (hresult : result.length < resultSize) :
    (result.length + linesLength P es < resultSize ∧
      zrangeText P es result = result ++ es.flatMap (zrangeLine P)) ∨
    ∃ pre e post, es = pre ++ e :: post ∧ result.length + linesLength P pre < resultSize ∧
      resultSize ≤ result.length + linesLength P pre + (zrangeLine P e).length ∧
      zrangeText P es result = result ++ pre.flatMap (zrangeLine P) ++
        (zrangeLine P e).take (resultSize - (result.length + linesLength P pre) - 1) := by
  induction es generalizing result with
  | nil => exact .inl ⟨hresult, (List.append_nil result).symm⟩
  | cons e es ih =>
    rw [zrangeText]
    by_cases hfull : resultSize - result.length ≤ (zrangeLine P e).length
    · rw [if_pos hfull]
      refine .inr ⟨[], e, es, rfl, hresult, ?_, ?_⟩
      · change resultSize ≤ result.length + 0 + (zrangeLine P e).length
        omega
      · rw [List.flatMap_nil, List.append_nil]
        rfl
    · rw [if_neg hfull]
      have hnext : (result ++ zrangeLine P e).length < resultSize := by
        rw [List.length_append]
        omega
      obtain ⟨hlt, htext⟩ | ⟨pre, x, post, rfl, hlt, hle, htext⟩ := ih hnext
      · rw [List.length_append] at hlt
        refine .inl ⟨by rw [linesLength_cons]; omega, ?_⟩
        rw [htext, List.flatMap_cons, List.append_assoc]
      · rw [List.length_append] at hlt hle htext
        refine .inr ⟨e :: pre, x, post, rfl, by rw [linesLength_cons]; omega, by rw [linesLength_cons]; omega, ?_⟩
        rw [htext, List.flatMap_cons, linesLength_cons, ← Nat.add_assoc]
        simp only [List.append_assoc]

/-- The lines before the one that is cut fill the buffer when some first lines do. -/
theorem linesLength_of_fit {pre post : List (ZRangeEntry S)} (hlt : linesLength P pre < resultSize)
    (hle : resultSize ≤ linesLength P pre + (zrangeLine P e).length)
    (h : LinesFit P (pre ++ e :: post)) : linesLength P pre = resultSize - 1 := by
  obtain hall | ⟨k, -, hk⟩ := h
  · rw [linesLength_append, linesLength_cons] at hall
    omega
  · obtain hkp | hkp := le_or_gt k pre.length
    · rw [List.take_append_of_le_length hkp] at hk
      have hpre := linesLength_take_le (P := P) pre k
      omega
    · obtain ⟨j, rfl⟩ : ∃ j, k = pre.length + (j + 1) := ⟨k - pre.length - 1, by omega⟩
      rw [List.take_length_add_append, List.take_succ_cons, linesLength_append,
        linesLength_cons, resultSize] at hk
      rw [resultSize] at hle
      omega

/-- The text has no part of a line exactly when the lines fit. -/
theorem zrangeText_whole_iff (es : List (ZRangeEntry S)) :
    WholeLines P es (zrangeText P es []) ↔ LinesFit P es := by
  have hnil : ([] : List UInt8).length < resultSize := by decide
  obtain ⟨hlt, htext⟩ | ⟨pre, e, post, rfl, hlt, hle, htext⟩ := @zrangeText_cases S P es [] hnil
  · rw [List.length_nil, Nat.zero_add] at hlt
    refine iff_of_true ⟨es.length, le_rfl, ?_⟩ (.inl hlt)
    rw [htext, List.take_length, List.nil_append]
  · rw [List.length_nil, Nat.zero_add] at hlt hle htext
    rw [List.nil_append] at htext
    constructor
    · rintro ⟨k, hk, hreply⟩
      have hlen : linesLength P ((pre ++ e :: post).take k) = resultSize - 1 := by
        rw [← length_flatMap_zrangeLine, ← hreply, htext, List.length_append,
          length_flatMap_zrangeLine, List.length_take]
        omega
      obtain rfl | hk := Nat.eq_or_lt_of_le hk
      · rw [List.take_length] at hlen
        exact .inl (by rw [hlen]; decide)
      · exact .inr ⟨k, hk, hlen⟩
    · intro hfit
      have hpre := linesLength_of_fit hlt hle hfit
      refine ⟨pre.length, by simp, ?_⟩
      rw [htext, hpre, List.take_left]
      exact List.append_nil _

section Reply

variable [Comparisons S] {cfg : ServerConfig} {n : ℕ} {w : Host} {s : Store S}
  {key value : CString} {min max : S} {entries : List (ZRangeEntry S)}

theorem runCommand_zrange (hrange : P.sscanf value = some (min, max))
    (hentries : kvsSkiptableZrangeEntries n s.skiptable min max 100 = some entries) :
    runCommand P n w s cfg (some .zrange) (some key) (some value) =
      some (zrangeText P entries [], s) := by
  change runZrange P n s (some key) (some value) = _
  simp only [runZrange, hrange, hentries, Option.bind_some]

/-- The reply to a `ZRANGE` with a range consists of complete lines of the first entries found
exactly when their lines fit. -/
theorem zrange_reply_whole_iff (hrange : P.sscanf value = some (min, max))
    (hentries : kvsSkiptableZrangeEntries n s.skiptable min max 100 = some entries) :
    (∃ reply, runCommand P n w s cfg (some .zrange) (some key) (some value) = some (reply, s) ∧
      WholeLines P entries reply) ↔ LinesFit P entries := by
  rw [runCommand_zrange hrange hentries, ← zrangeText_whole_iff]
  constructor
  · rintro ⟨reply, he, hwhole⟩
    cases he
    exact hwhole
  · intro hwhole
    exact ⟨_, rfl, hwhole⟩

end Reply

/-- Scores of one digit. Every range is from 1 to 9. -/
def digitScores : Scores ℕ :=
  ⟨fun _ => 0, fun _ => some (1, 9), fun score => .read [UInt8.ofNat (48 + score), 46, 48, 48]⟩

/-- A letter and 126 times the letter `a`. -/
def wide (b : UInt8) (hb : b ≠ 0) : CString :=
  ⟨b :: List.replicate 126 97, fun h => by
    obtain rfl | h := List.mem_cons.mp h
    · exact hb rfl
    · cases List.eq_of_mem_replicate h⟩

/-- The list behind the `ZADD` of a wide member with a wide value. -/
def widened (L : SkipList ℕ) (p : Ptr) (b : UInt8) (hb : b ≠ 0) (score : ℕ) : SkipList ℕ :=
  (kvsSkiptableZadd 9 L p 0 (wide b hb) (wide b hb) score).elim L (·.2)

def fourWide : SkipList ℕ :=
  widened (widened (widened (widened SkipList.start 2 98 (by decide) 1) 3 99 (by decide) 2) 4 100
    (by decide) 3) 5 101 (by decide) 4

def wideEntry (b : UInt8) (hb : b ≠ 0) (score : ℕ) : ZRangeEntry ℕ :=
  ⟨(wide b hb).truncate 127, (wide b hb).truncate 127, score⟩

theorem fourWide_entries : kvsSkiptableZrangeEntries 9 fourWide 1 9 100 =
    some [wideEntry 98 (by decide) 1, wideEntry 99 (by decide) 2, wideEntry 100 (by decide) 3,
      wideEntry 101 (by decide) 4] := rfl

/-- One wide member is a line of 261 bytes. -/
theorem zrange_reply_whole_iff_one : ∃ reply,
    runCommand digitScores 9 roomyHost
      { freshStore with skiptable := widened SkipList.start 2 98 (by decide) 1 }
      ⟨checkedConfig, .empty⟩ (some .zrange) (some (.read [122])) (some (.read [49, 32, 57])) =
        some (reply, { freshStore with skiptable := widened SkipList.start 2 98 (by decide) 1 }) ∧
      WholeLines digitScores [wideEntry 98 (by decide) 1] reply :=
  (zrange_reply_whole_iff rfl rfl).mpr (.inl (by decide +kernel))

/-- The fourth line is cut off after 240 of its 261 bytes. -/
theorem zrange_cuts_line :
    kvsSkiptableZrangeEntries 9 fourWide 1 9 100 = some [wideEntry 98 (by decide) 1,
      wideEntry 99 (by decide) 2, wideEntry 100 (by decide) 3, wideEntry 101 (by decide) 4] ∧
    ¬ ∃ reply, runCommand digitScores 9 roomyHost { freshStore with skiptable := fourWide }
      ⟨checkedConfig, .empty⟩ (some .zrange) (some (.read [122])) (some (.read [49, 32, 57])) =
        some (reply, { freshStore with skiptable := fourWide }) ∧
      WholeLines digitScores [wideEntry 98 (by decide) 1, wideEntry 99 (by decide) 2,
        wideEntry 100 (by decide) 3, wideEntry 101 (by decide) 4] reply := by
  refine ⟨fourWide_entries, ?_⟩
  rintro ⟨reply, hreply, hwhole⟩
  rw [runCommand_zrange rfl fourWide_entries, Option.some.injEq, Prod.mk.injEq] at hreply
  rw [← hreply.1, zrangeText_whole_iff] at hwhole
  obtain hall | ⟨k, hk, hlen⟩ := hwhole
  · exact absurd hall (by decide +kernel)
  · revert k
    decide +kernel

end KvStore
