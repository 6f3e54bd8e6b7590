import KvStore.Lib.Double
import KvStore.Skip.Members
import KvStore.Skip.Select

/-! Skip lists with doubles for scores. A NaN compares with nothing, so the members are in order
only where no score is one; both zeros have the same place. -/
namespace KvStore
open Levels Member

namespace SkipList

variable {L L' : SkipList Double} {ns : List (Member Double)} {k v : CString} {score : Double}

/-- The members have numbers for scores and are in strict order of score and key. -/
structure Numbers (L : SkipList Double) (ns : List (Member Double)) : Prop where
  repr : L.Repr ns
  sorted : SortedBy Double.rank ns
  number : ∀ x ∈ ns, ¬ x.score.IsNaN

/-- Against numbers a NaN compares like the least of all places. -/
theorem Numbers.compares (h : L.Numbers ns) (score : Double) : Compares Double.rank ns score :=
  fun x hx => ⟨Double.lt_iff (h.number x hx), Double.beq_iff (h.number x hx)⟩

theorem Numbers.wellFormed (h : L.Numbers ns) : L.WellFormed ns := by
  refine h.repr.wellFormed (h.sorted.imp_of_mem fun {x y} hx _ hxy => ?_)
  have hx' := h.number x hx
  rw [place, place, Prod.Lex.toLex_lt_toLex] at hxy
  simpa [Double.lt_iff hx', Double.beq_iff hx'] using hxy

theorem Numbers.create (nodes : Ptr → Option (SkipNode Double)) {p : Ptr} (hp : p ≠ null) :
    (kvsSkiptableCreate nodes p).Numbers [] := ⟨.create nodes hp, .nil, by simp⟩

/-- What `kvs_skiptable_zadd` does to such members. A NaN comes in front of all of them, and is then
a member that is no number. -/
theorem Numbers.zadd (h : L.Numbers ns) {p : Ptr} {level : ℕ} (hp : L.Fresh p)
    (hlevel : level ≤ skipMaxLevel) (k v : CString) (score : Double) :
    ∃ pre post L',
      (∃ c, ns = pre ++ c :: post ∧ (c.score == score) = true ∧ c.key = k ∧
        Fuel.Returns (fun n => kvsSkiptableZadd n L p level k v score) (1, L') ∧
        L'.Numbers (pre ++ { c with value := v } :: post)) ∨
      ns = pre ++ post ∧ (score.IsNaN → pre = []) ∧
        (∀ x ∈ ns, (x.score == score) = true → x.key ≠ k) ∧
        Fuel.Returns (fun n => kvsSkiptableZadd n L p level k v score) (0, L') ∧
        L'.Repr (pre ++ ⟨p, k, v, score, level⟩ :: post) ∧
        (¬ score.IsNaN → L'.Numbers (pre ++ ⟨p, k, v, score, level⟩ :: post)) := by
  obtain ⟨pre, post, L', hlo, -, ⟨c, rfl, hsc, hk, hret, hR, -⟩ | ⟨rfl, hhi, hret, hR⟩⟩ :=
    h.repr.zaddBy h.sorted (h.compares score) hp.2 hp.1 hlevel k v
  · refine ⟨pre, post, L', .inl ⟨c, rfl, hsc, hk, hret, hR, pairwise_replace h.sorted rfl, ?_⟩⟩
    have hnum := h.number
    simp only [List.mem_append, List.mem_cons] at hnum ⊢
    rintro x (hx | rfl | hx)
    · exact hnum x (.inl hx)
    · exact hnum c (.inr (.inl rfl))
    · exact hnum x (.inr (.inr hx))
  · refine ⟨pre, post, L', .inr ⟨rfl, fun hnan => ?_, fun x hx hsc hk => ?_, hret, hR,
      fun hscore => ⟨hR, pairwise_insert h.sorted hlo hhi, ?_⟩⟩⟩
    · -- no place is below the one of a NaN
      rw [List.eq_nil_iff_forall_not_mem]
      intro x hx
      have hlt := hlo x hx
      have hnum := h.number x (by simp [hx])
      rw [place, Prod.Lex.toLex_lt_toLex, Double.rank_eq_bot.mpr hnan] at hlt
      obtain hlt | ⟨heq, -⟩ := hlt
      · exact not_lt_bot hlt
      · exact hnum (Double.rank_eq_bot.mp heq)
    · have hplace : place Double.rank x = toLex (score.rank, k) := by
        rw [place, (Double.beq_iff (h.number x hx)).mp hsc, hk]
      obtain hx | hx := List.mem_append.mp hx
      · exact (hlo x hx).ne hplace
      · exact (hhi x hx).ne' hplace
    · have hnum := h.number
      simp only [List.mem_append, List.mem_cons] at hnum ⊢
      rintro x (hx | rfl | hx)
      · exact hnum x (.inl hx)
      · exact hscore
      · exact hnum x (.inr hx)

/-- A score above all others gets the last place. -/
theorem Numbers.zadd_last (h : L.Numbers ns) {p : Ptr} {level : ℕ} (hp : L.Fresh p)
    (hlevel : level ≤ skipMaxLevel) (k v : CString) (hscore : ¬ score.IsNaN)
    (hlast : ∀ x ∈ ns, x.score < score) :
    ∃ L', Fuel.Returns (fun n => kvsSkiptableZadd n L p level k v score) (0, L') ∧
      L'.Numbers (ns ++ [⟨p, k, v, score, level⟩]) := by
  have hrank : ∀ x ∈ ns, x.score.rank < score.rank := fun x hx =>
    (Double.lt_iff (h.number x hx)).mp (hlast x hx)
  obtain ⟨pre, post, L', ⟨c, rfl, hsc, -⟩ | ⟨rfl, -, -, hret, -, hN⟩⟩ := h.zadd hp hlevel k v score
  · have hc : c ∈ pre ++ c :: post := by simp
    exact absurd ((Double.beq_iff (h.number c hc)).mp hsc) (hrank c hc).ne
  · obtain rfl : post = [] := by
      refine eq_nil_of_last (hN hscore).sorted fun x hx => ?_
      rw [place, place, Prod.Lex.toLex_lt_toLex]
      exact .inl (hrank x hx)
    rw [List.append_nil]
    exact ⟨L', hret, hN hscore⟩

/-- What `kvs_skiptable_zrem` does to such members. -/
theorem Numbers.zrem (h : L.Numbers ns) (k : CString) :
    (∃ pre c post L', ns = pre ++ c :: post ∧ c.key = k ∧ L'.Numbers (pre ++ post) ∧
      Fuel.Returns (fun n => kvsSkiptableZrem n L k) (0, L')) ∨
    Fuel.Returns (fun n => kvsSkiptableZrem n L k) (-1, L) := by
  obtain ⟨pre, post, rfl, -, -, ⟨c, post', L', rfl, hk, hret, hR, -⟩ | ⟨-, hret⟩⟩ := h.repr.zrem k
  · have hsub : (pre ++ post').Sublist (pre ++ c :: post') := by simp
    exact .inl ⟨pre, c, post', L', rfl, hk,
      ⟨hR, h.sorted.sublist hsub, fun x hx => h.number x (hsub.subset hx)⟩, hret⟩
  · exact .inr hret

/-- The lists built by the two calls from a new list, where each `zadd` is one of those allowed. -/
inductive Run (allowed : SkipList Double → CString → Double → Prop) : SkipList Double → Prop
  | create (nodes : Ptr → Option (SkipNode Double)) (p : Ptr) (hp : p ≠ null) :
      Run allowed (kvsSkiptableCreate nodes p)
  | zadd {L L' : SkipList Double} {p : Ptr} {level : ℕ} {key value : CString} {score : Double}
      {r : ℤ} (h : Run allowed L) (hp : L.Fresh p) (hlevel : level ≤ skipMaxLevel)
      (hallowed : allowed L key score)
      (hret : Fuel.Returns (fun n => kvsSkiptableZadd n L p level key value score) (r, L')) :
      Run allowed L'
  | zrem {L L' : SkipList Double} {key : CString} {r : ℤ} (h : Run allowed L)
      (hret : Fuel.Returns (fun n => kvsSkiptableZrem n L key) (r, L')) : Run allowed L'

theorem Run.numbers {allowed : SkipList Double → CString → Double → Prop}
    (hnum : ∀ L key score, allowed L key score → ¬ score.IsNaN) (h : Run allowed L) :
    ∃ ns, L.Numbers ns := by
  induction h with
  | create nodes p hp => exact ⟨[], .create nodes hp⟩
  | zadd _ hp hlevel hallowed hret ih =>
    obtain ⟨ns, hns⟩ := ih
    obtain ⟨pre, post, L', ⟨c, -, -, -, hret', hN⟩ | ⟨-, -, -, hret', -, hN⟩⟩ :=
      hns.zadd hp hlevel _ _ _
    · cases hret.unique hret'
      exact ⟨_, hN⟩
    · cases hret.unique hret'
      exact ⟨_, hN (hnum _ _ _ hallowed)⟩
  | zrem _ hret ih =>
    obtain ⟨ns, hns⟩ := ih
    obtain ⟨pre, c, post, L', -, -, hN, hret'⟩ | hret' := hns.zrem _
    · cases hret.unique hret'
      exact ⟨_, hN⟩
    · cases hret.unique hret'
      exact ⟨ns, hns⟩

/-- Every score given to `zadd` is a number. -/
abbrev NumberRun : SkipList Double → Prop := Run fun _ _ score => ¬ score.IsNaN

section Ranges

theorem Numbers.ascending (h : L.Numbers ns) :
    ns.Pairwise fun x y => x.score.rank ≤ y.score.rank := by
  refine h.sorted.imp fun hxy => ?_
  rw [place, place, Prod.Lex.toLex_lt_toLex] at hxy
  obtain hlt | ⟨heq, -⟩ := hxy
  · exact hlt.le
  · exact heq.le

theorem Numbers.takeWhile_le (h : L.Numbers ns) (max : Double) :
    (ns.takeWhile fun x => x.score ≤ max) = ns.filter fun x => x.score ≤ max :=
  takeWhile_eq_filter (h.ascending.imp_of_mem fun {x y} hx hy hxy => by
    simpa [Double.le_iff (h.number x hx), Double.le_iff (h.number y hy)] using hxy.trans)

/-- From a number on, the two scans leave what lies in the range. -/
theorem Numbers.scans (h : L.Numbers ns) {min : Double} (hmin : ¬ min.IsNaN) (max : Double) :
    ((ns.dropWhile fun x => x.score < min).takeWhile fun x => x.score ≤ max) =
      ns.filter fun x => min ≤ x.score ∧ x.score ≤ max := by
  rw [scans_eq_filter
    (h.ascending.imp_of_mem fun {x y} hx hy hxy => by
      simpa [Double.lt_iff (h.number x hx), Double.lt_iff (h.number y hy)] using hxy.trans_lt)
    (h.ascending.imp_of_mem fun {x y} hx hy hxy => by
      simpa [Double.le_iff (h.number x hx), Double.le_iff (h.number y hy)] using hxy.trans)]
  refine List.filter_congr fun x hx => ?_
  rw [Bool.decide_and, ← decide_not, decide_eq_decide.mpr]
  rw [Double.lt_iff (h.number x hx), Double.le_iff hmin, not_lt]

/-- From a NaN on, nothing is skipped and nothing lies in the range. -/
theorem scans_of_isNaN {min : Double} (hmin : min.IsNaN) (ns : List (Member Double))
    (max : Double) :
    (ns.dropWhile fun x => x.score < min) = ns ∧
      (ns.filter fun x => min ≤ x.score ∧ x.score ≤ max) = [] := by
  constructor
  · rw [List.dropWhile_eq_self_iff]
    intro _
    simpa using Double.not_lt_of_isNaN hmin
  · rw [List.filter_eq_nil_iff]
    intro x _
    simpa using fun hle => absurd hle (Double.not_le_of_isNaN hmin)

/-- A new list. -/
abbrev blankList : SkipList Double := kvsSkiptableCreate (fun _ => none) 1

theorem fresh_blankList {q : Ptr} (hq : q ≠ null) (hne : q ≠ 1) : blankList.Fresh q :=
  fresh_create hq hne

theorem numberRun_blankList : NumberRun blankList := .create _ 1 (by decide)

/-- With `a` at 1. -/
theorem one_member : ∃ L, NumberRun L ∧
    Fuel.Returns (fun n => kvsSkiptableZadd n blankList 2 0 letterA .empty .one) (0, L) ∧
    L.Numbers [⟨2, letterA, .empty, .one, 0⟩] ∧ L.Fresh 3 := by
  obtain ⟨L, hret, hN⟩ := (Numbers.create (fun _ => none) (p := 1) (by decide)).zadd_last
    (fresh_blankList (show (2 : Ptr) ≠ null by decide) (by decide)) (Nat.zero_le _) letterA .empty
    (show ¬ Double.one.IsNaN by decide) (by simp)
  exact ⟨L, numberRun_blankList.zadd (fresh_blankList (by decide) (by decide)) (Nat.zero_le _)
    (by decide) hret, hret, hN, (fresh_blankList (by decide) (by decide)).zadd (by decide) hret⟩

/-- The query, from a list whose scores are numbers: it fills in the first `maxResults` members of
the range in the order of score and key, unless the lower end is a NaN and an entry is filled in
though none lies in the range. -/
theorem kvsSkiptableZrangeEntries_selects_iff (h : NumberRun L) : ∃ ns, L.WellFormed ns ∧
    ∀ min max maxResults, ∃ es,
      Fuel.Returns (fun n => kvsSkiptableZrangeEntries n L min max maxResults) es ∧
      (es = ((ns.filter fun x => min ≤ x.score ∧ x.score ≤ max).take maxResults).map entryOf ↔
        (min.IsNaN → maxResults = 0 ∨ ∀ x ∈ ns, ¬ x.score ≤ max)) ∧
      (max < min → es = []) := by
  obtain ⟨ns, hns⟩ := h.numbers fun _ _ _ hscore => hscore
  obtain ⟨p, hread, hrow⟩ := hns.repr.row
  refine ⟨ns, hns.wellFormed, fun min max maxResults => ⟨_, hrow.zrange hread min max maxResults, ?_, ?_⟩⟩
  · by_cases hmin : min.IsNaN
    · obtain ⟨hdrop, hnone⟩ := scans_of_isNaN hmin ns max
      rw [hdrop, hnone, hns.takeWhile_le, List.take_nil, List.map_nil, List.map_eq_nil_iff,
        List.take_eq_nil_iff, List.filter_eq_nil_iff]
      simp [hmin]
    · rw [hns.scans hmin]
      exact iff_of_true rfl fun hnan => absurd hnan hmin
  · intro hlt
    obtain ⟨hmax, hmin, hrank⟩ := hlt
    have hnone : (ns.filter fun x => min ≤ x.score ∧ x.score ≤ max) = [] := by
      rw [List.filter_eq_nil_iff]
      intro x _
      rw [decide_eq_true_eq]
      exact fun hx => (hx.1.2.2.trans hx.2.2.2).not_gt hrank
    rw [hns.scans hmin, hnone, List.take_nil, List.map_nil]

/-- With `a` at 1 and `b` at 2, the range from 2 on has `b` only; a query from a NaN up to 1 gives
`a`, and one that asks for no entries is as it should be. -/
theorem kvsSkiptableZrangeEntries_selects_two : ∃ L, NumberRun L ∧
    L.WellFormed [⟨2, letterA, .empty, .one, 0⟩, ⟨3, letterB, .empty, .two, 3⟩] ∧
    Fuel.Returns (fun n => kvsSkiptableZrangeEntries n L .two .two 5)
      [⟨letterB.truncate 127, CString.empty.truncate 127, .two⟩] ∧
    Fuel.Returns (fun n => kvsSkiptableZrangeEntries n L .two .one 5) [] := by
  obtain ⟨L₁, hrun₁, -, hN₁, hf₁⟩ := one_member
  obtain ⟨L₂, hret₂, hN₂⟩ := hN₁.zadd_last hf₁ (show 3 ≤ skipMaxLevel by decide) letterB .empty
    (show ¬ Double.two.IsNaN by decide) (by simpa using show Double.one < .two by decide)
  have hrun₂ : NumberRun L₂ := hrun₁.zadd hf₁ (by decide) (by decide) hret₂
  obtain ⟨ns, hw, hquery⟩ := kvsSkiptableZrangeEntries_selects_iff hrun₂
  obtain rfl := hw.unique hN₂.wellFormed
  obtain ⟨es, hes, hiff, -⟩ := hquery .two .two 5
  obtain ⟨es', hes', -, hnone⟩ := hquery .two .one 5
  rw [hiff.mpr fun hnan => absurd hnan (by decide)] at hes
  rw [hnone (by decide)] at hes'
  exact ⟨L₂, hrun₂, hw, hes, hes'⟩

/-- A query from a NaN gives an entry, and a member whose score is a NaN hides one. -/
theorem zrange_follows_nan : ¬ Double.nan ≤ .one ∧ 0 ≤ Double.one ∧ Double.one ≤ .two ∧ ∃ L₁ L₂,
    Fuel.Returns (fun n => kvsSkiptableZadd n blankList 2 0 letterA .empty .one) (0, L₁) ∧
    Fuel.Returns (fun n => kvsSkiptableZrangeEntries n L₁ .nan .two 5)
      [⟨letterA.truncate 127, CString.empty.truncate 127, .one⟩] ∧
    Fuel.Returns (fun n => kvsSkiptableZadd n L₁ 3 0 letterB .empty .nan) (0, L₂) ∧
    Fuel.Returns (fun n => kvsSkiptableZrangeEntries n L₂ 0 .two 5) [] := by
  obtain ⟨L₁, -, hret₁, hN₁, hf₁⟩ := one_member
  obtain ⟨p, hread, hrow⟩ := hN₁.repr.row
  obtain ⟨pre, post, L₂, ⟨c, hc, hsc, -⟩ | ⟨hns, hfront, -, hret₂, hR₂, -⟩⟩ :=
    hN₁.zadd hf₁ (Nat.zero_le _) letterB .empty .nan
  · rw [Double.beq_iff (hN₁.number c (by simp [hc]))] at hsc
    exact absurd (Double.rank_eq_bot.mp hsc) (hN₁.number c (by simp [hc]))
  · rw [hfront (by decide), List.nil_append] at hns hR₂
    subst hns
    obtain ⟨p', hread', hrow'⟩ := hR₂.row
    exact ⟨by decide, by decide, by decide, L₁, L₂, hret₁, hrow.zrange hread .nan .two 5, hret₂, hrow'.zrange hread' 0 .two 5⟩

end Ranges

section Unique

/-- Whatever is recorded for the key on level 0 has the score that is now given. -/
def KeepsScore (L : SkipList Double) (k : CString) (score : Double) : Prop :=
  ∀ qs, L.Chain 0 L.header qs → ∀ q ∈ qs, ∀ node, L.nodes q = some node →
    node.key = k → (node.score == score) = true

theorem Numbers.keepsScore_iff (h : L.Numbers ns) :
    L.KeepsScore k score ↔ ∀ x ∈ ns, x.key = k → (x.score == score) = true := by
  have hw := h.wellFormed
  constructor
  · intro hk x hx hxk
    obtain ⟨f, hf, -⟩ := hw.stored x hx
    exact hk _ hw.chain x.ptr (List.mem_map_of_mem hx) _ hf hxk
  · intro hk qs hqs q hq nd hnd hnk
    rw [hqs.unique hw.chain] at hq
    obtain ⟨x, hx, rfl⟩ := List.mem_map.mp hq
    obtain ⟨f, hf, -⟩ := hw.stored x hx
    rw [hnd, Option.some.injEq] at hf
    subst hf
    exact hk x hx hnk

/-- No `zadd` is given a NaN or changes the score of a member. -/
abbrev SteadyRun : SkipList Double → Prop :=
  Run fun L key score => ¬ score.IsNaN ∧ L.KeepsScore key score

theorem SteadyRun.unique_keys (h : SteadyRun L) :
    ∃ ns, L.Numbers ns ∧ (ns.map Member.key).Nodup := by
  induction h with
  | create nodes p hp => exact ⟨[], .create nodes hp, by simp⟩
  | @zadd _ _ _ _ key value score _ _ hp hlevel hallowed hret ih =>
    obtain ⟨ns, hns, hu⟩ := ih
    obtain ⟨hscore, hk⟩ := hallowed
    rw [hns.keepsScore_iff] at hk
    obtain ⟨pre, post, L', ⟨c, rfl, -, hc, hret', hN⟩ | ⟨rfl, -, hno, hret', -, hN⟩⟩ :=
      hns.zadd hp hlevel key value score
    · cases hret.unique hret'
      refine ⟨_, hN, ?_⟩
      simpa using hu
    · cases hret.unique hret'
      refine ⟨_, hN hscore, ?_⟩
      rw [List.map_append, List.map_cons, List.nodup_middle, ← List.map_append]
      refine List.nodup_cons.mpr ⟨fun hm => ?_, hu⟩
      obtain ⟨x, hx, hxk⟩ := List.mem_map.mp hm
      exact hno x hx (hk x hx hxk) hxk
  | zrem _ hret ih =>
    obtain ⟨ns, hns, hu⟩ := ih
    obtain ⟨pre, c, post, L', rfl, -, hN, hret'⟩ | hret' := hns.zrem _
    · cases hret.unique hret'
      refine ⟨_, hN, hu.sublist (List.Sublist.map _ ?_)⟩
      simp
    · cases hret.unique hret'
      exact ⟨_, hns, hu⟩

/-- `kvs_skiptable_zadd` as its declaration announces it for a key already present: it answers 1
and the new score and value are the only ones recorded for the key. -/
def ZaddUpdates (L : SkipList Double) (p : Ptr) (level : ℕ) (k v : CString) (score : Double) :
    Prop :=
  ∃ L' ns', Fuel.Returns (fun n => kvsSkiptableZadd n L p level k v score) (1, L') ∧
    L'.WellFormed ns' ∧ (∃ c ∈ ns', c.key = k) ∧
    ∀ c ∈ ns', c.key = k → (c.score == score) = true ∧ c.value = v

theorem Numbers.zaddUpdates_iff (h : L.Numbers ns) (hu : (ns.map Member.key).Nodup) {p : Ptr}
    {level : ℕ} (hp : L.Fresh p) (hlevel : level ≤ skipMaxLevel) (hex : ∃ c ∈ ns, c.key = k) :
    ZaddUpdates L p level k v score ↔ L.KeepsScore k score := by
  rw [h.keepsScore_iff]
  obtain ⟨pre, post, L', ⟨c, rfl, hsc, hc, hret, hN⟩ | ⟨rfl, -, hno, hret, -⟩⟩ :=
    h.zadd hp hlevel k v score
  · rw [List.map_append, List.map_cons, List.nodup_middle, ← List.map_append, List.nodup_cons,
      hc] at hu
    have hother : ∀ x ∈ pre ++ post, x.key ≠ k := fun x hx hxk =>
      hu.1 (hxk ▸ List.mem_map_of_mem hx)
    have hcases : ∀ (x y : Member Double), x ∈ pre ++ y :: post → x.key = k → x = y := by
      intro x y hx hxk
      have hno := hother x
      simp only [List.mem_append, List.mem_cons] at hx hno
      tauto
    refine iff_of_true ⟨L', _, hret, hN.wellFormed, ⟨{ c with value := v }, by simp, hc⟩,
      fun x hx hxk => ?_⟩ fun x hx hxk => by rw [hcases x c hx hxk, hsc]
    rw [hcases x _ hx hxk]
    exact ⟨hsc, rfl⟩
  · have hne : ¬ ∀ x ∈ pre ++ post, x.key = k → (x.score == score) = true := by
      intro hall
      obtain ⟨c, hc, hck⟩ := hex
      exact hno c hc (hall c hc hck) hck
    refine iff_of_false ?_ hne
    rintro ⟨L'', ns', hret', -⟩
    cases hret.unique hret'

/-- Along every run in which no `zadd` is given a NaN or changes the score of a member, no key is
recorded twice, and a `zadd` of a key already present updates it exactly when it gives its score
again. -/
theorem steadyRun_unique_members (h : SteadyRun L) :
    ∃ ns, L.WellFormed ns ∧ (ns.map Member.key).Nodup ∧
      ∀ p level k v score, L.Fresh p → level ≤ skipMaxLevel → (∃ c ∈ ns, c.key = k) →
        (ZaddUpdates L p level k v score ↔ L.KeepsScore k score) := by
  obtain ⟨ns, hns, hu⟩ := h.unique_keys
  exact ⟨ns, hns.wellFormed, hu, fun p level k v score hp hlevel hex =>
    hns.zaddUpdates_iff hu hp hlevel hex⟩

/-- With `a` at 1, a `zadd` of `a` at 1 updates it and one at 2 does not. -/
theorem steadyRun_unique_members_one : ∃ L, SteadyRun L ∧
    L.WellFormed [⟨2, letterA, .empty, .one, 0⟩] ∧
    ZaddUpdates L 3 0 letterA letterB .one ∧ ¬ ZaddUpdates L 3 0 letterA letterB .two := by
  obtain ⟨L, -, hret, hN, hf⟩ := one_member
  have hblank : SteadyRun blankList := .create _ 1 (by decide)
  have hkeeps : blankList.KeepsScore letterA .one :=
    (Numbers.create (fun _ => none) (p := 1) (by decide)).keepsScore_iff.mpr (by simp)
  have hrun : SteadyRun L := hblank.zadd (fresh_blankList (by decide) (by decide)) (Nat.zero_le _)
    ⟨by decide, hkeeps⟩ hret
  obtain ⟨ns, hw, -, hiff⟩ := steadyRun_unique_members hrun
  obtain rfl := hw.unique hN.wellFormed
  refine ⟨L, hrun, hw, ?_, fun hup => ?_⟩
  · rw [hiff 3 0 letterA letterB .one hf (Nat.zero_le _) ⟨_, List.mem_cons_self, rfl⟩,
      hN.keepsScore_iff]
    intro x hx _
    rw [List.mem_singleton.mp hx]
    decide
  · rw [hiff 3 0 letterA letterB .two hf (Nat.zero_le _) ⟨_, List.mem_cons_self, rfl⟩,
      hN.keepsScore_iff] at hup
    exact absurd (hup _ List.mem_cons_self rfl) (by decide)

/-- The same key under a second score is recorded a second time. -/
theorem zadd_duplicates_member : ∃ L₁ L₂,
    Fuel.Returns (fun n => kvsSkiptableZadd n blankList 2 0 letterA .empty .one) (0, L₁) ∧
    Fuel.Returns (fun n => kvsSkiptableZadd n L₁ 3 0 letterA .empty .two) (0, L₂) ∧
    L₂.WellFormed [⟨2, letterA, .empty, .one, 0⟩, ⟨3, letterA, .empty, .two, 0⟩] := by
  obtain ⟨L₁, -, hret₁, hN₁, hf₁⟩ := one_member
  obtain ⟨L₂, hret₂, hN₂⟩ := hN₁.zadd_last hf₁ (Nat.zero_le _) letterA .empty
    (show ¬ Double.two.IsNaN by decide) (by simpa using show Double.one < .two by decide)
  exact ⟨L₁, L₂, hret₁, hret₂, hN₂.wellFormed⟩

end Unique
end SkipList
end KvStore
