import KvStore.Lib.Alike
import KvStore.Skip.Range

/-! Two skip lists that agree on a set of blocks which holds the header and which no pointer leaves.
The calls read the blocks of the set only, so that what other memory holds does not matter. -/
namespace KvStore
open Fuel

namespace SkipList

variable {S : Type*} {W : Ptr → Prop} {L M : SkipList S} {p q x : Ptr} {i n : ℕ}

structure Agree (W : Ptr → Prop) (L M : SkipList S) : Prop where
  level : M.level = L.level
  header : M.header = L.header
  length : M.length = L.length
  nodes : ∀ p, W p → M.nodes p = L.nodes p
  start : W L.header
  closed : ∀ p node, W p → L.nodes p = some node → ∀ q ∈ node.forward, q ≠ null → W q

/-- The blocks that a local variable array points to. -/
def Within (W : Ptr → Prop) (update : ℕ → Option Ptr) : Prop := ∀ j u, update j = some u → W u

namespace Agree

theorem read_eq (h : Agree W L M) (hp : W p) (i : ℕ) : M.read p i = L.read p i := by
  rw [read, read, h.nodes p hp]

theorem of_read (h : Agree W L M) (hp : W p) (hr : L.read p i = some q) (hq : q ≠ null) : W q := by
  obtain ⟨node, hnode, hf⟩ := Option.bind_eq_some_iff.mp hr
  exact h.closed p node hp hnode q (List.mem_of_getElem? hf) hq

theorem scan (h : Agree W L M) (less : SkipNode S → Bool) (i n : ℕ) (hp : W p) :
    M.scan less i n p = L.scan less i n p ∧ ∀ r, L.scan less i n p = some r → W r := by
  induction n generalizing p with
  | zero => exact ⟨rfl, fun r hr => by cases hr⟩
  | succ n ih =>
    rw [SkipList.scan, SkipList.scan, h.read_eq hp]
    cases hread : L.read p i with
    | none => exact ⟨rfl, fun r hr => by cases hr⟩
    | some next =>
      simp only [Option.bind_some]
      by_cases hnext : next = null
      · rw [if_neg (not_not.mpr hnext), if_neg (not_not.mpr hnext)]
        refine ⟨rfl, ?_⟩
        rintro r ⟨⟩
        exact hp
      · have hw := h.of_read hp hread hnext
        rw [if_pos hnext, if_pos hnext, h.nodes next hw]
        cases L.nodes next with
        | none => exact ⟨rfl, fun r hr => by cases hr⟩
        | some node =>
          simp only [Option.bind_some]
          cases less node with
          | true => exact ih hw
          | false =>
            refine ⟨rfl, ?_⟩
            rintro r ⟨⟩
            exact hp

theorem descend (h : Agree W L M) (less : SkipNode S → Bool) (n i : ℕ) {update : ℕ → Option Ptr}
    (hp : W p) (hu : Within W update) :
    M.descend less n i p update = L.descend less n i p update ∧
      ∀ r, L.descend less n i p update = some r → W r.1 ∧ Within W r.2 := by
  have hnew : ∀ {j u} {update : ℕ → Option Ptr}, Within W update → W u →
      Within W (Function.update update j (some u)) := by
    intro j u update hu hw k v hv
    by_cases hk : k = j
    · rw [hk, Function.update_self] at hv
      cases hv
      exact hw
    · rw [Function.update_of_ne hk] at hv
      exact hu k v hv
  induction i generalizing p update with
  | zero =>
    obtain ⟨heq, hw⟩ := h.scan less 0 n hp
    rw [SkipList.descend, SkipList.descend, heq]
    refine ⟨rfl, ?_⟩
    intro r hr
    obtain ⟨u, hscan, hr⟩ := Option.bind_eq_some_iff.mp hr
    cases hr
    exact ⟨hw u hscan, hnew hu (hw u hscan)⟩
  | succ i ih =>
    obtain ⟨heq, hw⟩ := h.scan less (i + 1) n hp
    rw [SkipList.descend, SkipList.descend, heq]
    cases hscan : L.scan less (i + 1) n p with
    | none => exact ⟨rfl, fun r hr => by cases hr⟩
    | some u => exact ih (hw u hscan) (hnew hu (hw u hscan))

/-- A block is written in both lists. -/
theorem setNode (h : Agree W L M) (p : Ptr) {node : Option (SkipNode S)}
    (hnode : ∀ x, node = some x → ∀ q ∈ x.forward, q ≠ null → q = p ∨ W q) :
    Agree (fun q => q = p ∨ W q) (L.setNode p node) (M.setNode p node) where
  level := h.level
  header := h.header
  length := h.length
  nodes := by
    intro q hq
    by_cases hqp : q = p
    · simp [hqp]
    · simp [hqp, h.nodes q (hq.resolve_left hqp)]
  start := .inr h.start
  closed := by
    intro q x hq hx
    rw [setNode_nodes] at hx
    by_cases hqp : q = p
    · rw [hqp, Function.update_self] at hx
      exact hnode x hx
    · rw [Function.update_of_ne hqp] at hx
      exact fun r hr hne => .inr (h.closed q x (hq.resolve_left hqp) hx r hr hne)

/-- The same when the block was in the set. -/
theorem setNode_of_mem (h : Agree W L M) (hp : W p) {node : Option (SkipNode S)}
    (hnode : ∀ x, node = some x → ∀ q ∈ x.forward, q ≠ null → W q) :
    Agree W (L.setNode p node) (M.setNode p node) := by
  have hset := h.setNode p fun x hx q hq hne => .inr (hnode x hx q hq hne)
  have hsame : (fun q => q = p ∨ W q) = W := by
    funext q
    exact propext ⟨fun hq => hq.elim (fun he => he ▸ hp) id, .inr⟩
  rwa [hsame] at hset

theorem write (h : Agree W L M) (hp : W p) (i : ℕ) (hx : x ≠ null → W x) :
    Option.Rel (Agree W) (L.write p i x) (M.write p i x) := by
  rw [SkipList.write, SkipList.write, h.nodes p hp]
  cases hnode : L.nodes p with
  | none => exact .none
  | some node =>
    simp only [Option.bind_some]
    by_cases hi : i < node.forward.length
    · rw [if_pos hi, if_pos hi]
      refine .some (h.setNode_of_mem hp ?_)
      rintro _ ⟨⟩ q hq hne
      obtain hq | rfl := List.mem_or_eq_of_mem_set hq
      · exact h.closed p node hp hnode q hq hne
      · exact hx hne
    · rw [if_neg hi, if_neg hi]
      exact .none

theorem link (h : Agree W L M) {update : ℕ → Option Ptr} (hp : W p) (hu : Within W update)
    (count i : ℕ) :
    Option.Rel (Agree W) (SkipList.link p update count i L) (SkipList.link p update count i M) := by
  induction count generalizing i L M with
  | zero => exact .some h
  | succ count ih =>
    rw [SkipList.link, SkipList.link]
    cases hui : update i with
    | none => exact .none
    | some u =>
      have hw := hu i u hui
      simp only [Option.bind_some, h.read_eq hw]
      cases hread : L.read u i with
      | none => exact .none
      | some next =>
        simp only [Option.bind_some]
        refine rel_bind (h.write hp i (h.of_read hw hread)) fun L₁ M₁ h₁ => ?_
        refine rel_bind (h₁.write hw i fun _ => hp) fun L₂ M₂ h₂ => ?_
        exact ih h₂ (i + 1)

theorem unlink (h : Agree W L M) {update : ℕ → Option Ptr} (hp : W p) (hu : Within W update)
    (count i : ℕ) :
    Option.Rel (Agree W) (SkipList.unlink p update count i L) (SkipList.unlink p update count i M) := by
  induction count generalizing i L M with
  | zero => exact .some h
  | succ count ih =>
    rw [SkipList.unlink, SkipList.unlink]
    cases hui : update i with
    | none => exact .none
    | some u =>
      have hw := hu i u hui
      simp only [Option.bind_some, h.read_eq hw]
      cases L.read u i with
      | none => exact .none
      | some next =>
        simp only [Option.bind_some]
        by_cases hnext : next = p
        · rw [if_neg (not_not.mpr hnext), if_neg (not_not.mpr hnext), h.read_eq hp]
          cases hread : L.read p i with
          | none => exact .none
          | some next' =>
            simp only [Option.bind_some]
            exact rel_bind (h.write hw i (h.of_read hp hread)) fun L₁ M₁ h₁ => ih h₁ (i + 1)
        · rw [if_pos hnext, if_pos hnext]
          exact .some h

theorem lowerLevel (h : Agree W L M) (k : ℕ) : M.lowerLevel k = L.lowerLevel k := by
  induction k with
  | zero => rfl
  | succ k ih => rw [SkipList.lowerLevel, SkipList.lowerLevel, h.header, h.read_eq h.start, ih]

end Agree

/-- The lists behind two calls agree on some set, and the calls return the same. -/
def SameCall (r r' : ℤ × SkipList S) : Prop := r.1 = r'.1 ∧ ∃ W, Agree W r.2 r'.2

namespace Agree

theorem zaddNew (h : Agree W L M) {update : ℕ → Option Ptr} (hu : Within W update) (p : Ptr)
    (level : ℕ) (key value : CString) (score : S) :
    Option.Rel SameCall (zaddNew L update p level key value score)
      (zaddNew M update p level key value score) := by
  unfold KvStore.zaddNew
  extract_lets header old update₁ L₁ L₂ header' old' update₁' M₁ M₂
  have hupdate : update₁' = update₁ := by
    funext i
    simp only [update₁', update₁, header', header, old', old, h.level, h.header]
  have h₁ : Agree W L₁ M₁ := by
    unfold L₁ M₁
    rw [h.level]
    split_ifs
    · exact ⟨rfl, h.header, h.length, h.nodes, h.start, h.closed⟩
    · exact h
  have h₂ : Agree (fun q => q = p ∨ W q) L₂ M₂ := by
    apply h₁.setNode p
    rintro _ ⟨⟩ q hq hne
    exact absurd (List.eq_of_mem_replicate hq) hne
  have hu₁ : Within (fun q => q = p ∨ W q) update₁ := by
    intro j u hj
    unfold update₁ at hj
    split_ifs at hj
    · cases hj
      exact .inr h.start
    · exact .inr (hu j u hj)
  rw [hupdate]
  refine rel_bind (h₂.link (.inl rfl) hu₁ (level + 1) 0) fun L₃ M₃ h₃ => ?_
  refine .some ⟨rfl, _, h₃.level, h₃.header, ?_, h₃.nodes, h₃.start, h₃.closed⟩
  exact congrArg (· + 1) h₃.length

theorem zadd [LT S] [DecidableLT S] [BEq S] (h : Agree W L M) (n : ℕ) (p : Ptr) (level : ℕ)
    (key value : CString) (score : S) :
    Option.Rel SameCall (kvsSkiptableZadd n L p level key value score)
      (kvsSkiptableZadd n M p level key value score) := by
  obtain ⟨heq, hw⟩ := h.descend (zaddLess score key) n L.level h.start
    (show Within W fun _ => none from fun _ _ hu => by cases hu)
  rw [kvsSkiptableZadd, kvsSkiptableZadd, h.level, h.header, heq]
  cases hdesc : L.descend (zaddLess score key) n L.level L.header fun _ => none with
  | none => exact .none
  | some r =>
    obtain ⟨hcur, hu⟩ := hw r hdesc
    simp only [Option.bind_some, zaddAt, h.read_eq hcur]
    cases hread : L.read r.1 0 with
    | none => exact .none
    | some next =>
      simp only [Option.bind_some]
      by_cases hnext : next = null
      · rw [if_neg (not_not.mpr hnext), if_neg (not_not.mpr hnext)]
        exact h.zaddNew hu p level key value score
      · have hwn := h.of_read hcur hread hnext
        rw [if_pos hnext, if_pos hnext, h.nodes next hwn]
        cases hnode : L.nodes next with
        | none => exact .none
        | some node =>
          simp only [Option.bind_some]
          split_ifs
          · refine .some ⟨rfl, W, h.setNode_of_mem hwn ?_⟩
            rintro _ ⟨⟩
            exact h.closed next node hwn hnode
          · exact h.zaddNew hu p level key value score

theorem zrem (h : Agree W L M) (n : ℕ) (key : CString) :
    Option.Rel SameCall (kvsSkiptableZrem n L key) (kvsSkiptableZrem n M key) := by
  obtain ⟨heq, hw⟩ := h.descend (zremLess key) n L.level h.start
    (show Within W fun _ => none from fun _ _ hu => by cases hu)
  rw [kvsSkiptableZrem, kvsSkiptableZrem, h.level, h.header, heq]
  cases hdesc : L.descend (zremLess key) n L.level L.header fun _ => none with
  | none => exact .none
  | some r =>
    obtain ⟨hcur, hu⟩ := hw r hdesc
    simp only [Option.bind_some, zremAt, h.read_eq hcur]
    cases hread : L.read r.1 0 with
    | none => exact .none
    | some next =>
      simp only [Option.bind_some]
      by_cases hnext : next = null
      · rw [if_neg (not_not.mpr hnext), if_neg (not_not.mpr hnext)]
        exact .some ⟨rfl, W, h⟩
      · have hwn := h.of_read hcur hread hnext
        rw [if_pos hnext, if_pos hnext, h.nodes next hwn]
        cases L.nodes next with
        | none => exact .none
        | some node =>
          simp only [Option.bind_some]
          split_ifs
          · rw [zremFound, zremFound, h.level]
            refine rel_bind (h.unlink hwn hu (L.level + 1) 0) fun L₁ M₁ h₁ => ?_
            have h₂ : Agree W (L₁.setNode next none) (M₁.setNode next none) :=
              h₁.setNode_of_mem hwn fun _ hx => by cases hx
            dsimp only
            rw [setNode_level, setNode_level, h₁.level, h₂.lowerLevel]
            cases (L₁.setNode next none).lowerLevel L₁.level with
            | none => exact .none
            | some level =>
              refine .some ⟨rfl, W, rfl, h₂.header, ?_, h₂.nodes, h₂.start, h₂.closed⟩
              exact congrArg (· - 1) h₂.length
          · exact .some ⟨rfl, W, h⟩

theorem zrangeStart [LT S] [DecidableLT S] (h : Agree W L M) (min : S) (n : ℕ)
    (hp : p ≠ null → W p) :
    M.zrangeStart min n p = L.zrangeStart min n p ∧
      ∀ r, L.zrangeStart min n p = some r → r ≠ null → W r := by
  induction n generalizing p with
  | zero => exact ⟨rfl, fun r hr => by cases hr⟩
  | succ n ih =>
    rw [SkipList.zrangeStart, SkipList.zrangeStart]
    by_cases hnull : p = null
    · rw [if_neg (not_not.mpr hnull), if_neg (not_not.mpr hnull)]
      refine ⟨rfl, ?_⟩
      rintro r ⟨⟩
      exact hp
    · have hw := hp hnull
      rw [if_pos hnull, if_pos hnull, h.nodes p hw]
      cases L.nodes p with
      | none => exact ⟨rfl, fun r hr => by cases hr⟩
      | some node =>
        simp only [Option.bind_some, h.read_eq hw]
        split_ifs
        · cases hread : L.read p 0 with
          | none => exact ⟨rfl, fun r hr => by cases hr⟩
          | some next => exact ih (h.of_read hw hread)
        · refine ⟨rfl, ?_⟩
          rintro r ⟨⟩
          exact hp

theorem zrangeFill [LE S] [DecidableLE S] (h : Agree W L M) (max : S) (count : ℕ)
    (hp : p ≠ null → W p) :
    M.zrangeFill max count p = L.zrangeFill max count p := by
  induction count generalizing p with
  | zero =>
    rw [SkipList.zrangeFill, SkipList.zrangeFill]
    by_cases hnull : p = null
    · rw [if_neg (not_not.mpr hnull), if_neg (not_not.mpr hnull)]
    · rw [if_pos hnull, if_pos hnull, h.nodes p (hp hnull)]
  | succ count ih =>
    rw [SkipList.zrangeFill, SkipList.zrangeFill]
    by_cases hnull : p = null
    · rw [if_neg (not_not.mpr hnull), if_neg (not_not.mpr hnull)]
    · have hw := hp hnull
      rw [if_pos hnull, if_pos hnull, h.nodes p hw]
      cases L.nodes p with
      | none => rfl
      | some node =>
        simp only [Option.bind_some, h.read_eq hw]
        split_ifs
        · cases hread : L.read p 0 with
          | none => rfl
          | some next => simp only [Option.bind_some, ih (h.of_read hw hread)]
        · rfl

theorem zrange [LT S] [DecidableLT S] [LE S] [DecidableLE S] (h : Agree W L M) (n : ℕ)
    (min max : S) (count : ℕ) :
    kvsSkiptableZrangeEntries n M min max count = kvsSkiptableZrangeEntries n L min max count := by
  rw [kvsSkiptableZrangeEntries, kvsSkiptableZrangeEntries, h.header, h.read_eq h.start]
  cases hread : L.read L.header 0 with
  | none => rfl
  | some first =>
    obtain ⟨heq, hw⟩ := h.zrangeStart min n (h.of_read h.start hread)
    simp only [Option.bind_some, heq]
    cases hstart : L.zrangeStart min n first with
    | none => rfl
    | some next => exact h.zrangeFill max count (hw next hstart)

end Agree

/-- Two lists that were created in the same block agree, whatever their memory held. -/
theorem Agree.create [Zero S] (nodes nodes' : Ptr → Option (SkipNode S)) (p : Ptr) :
    Agree (fun q => q = p) (kvsSkiptableCreate nodes p) (kvsSkiptableCreate nodes' p) where
  level := rfl
  header := rfl
  length := rfl
  nodes := by
    rintro _ rfl
    simp [kvsSkiptableCreate, createSkipNode]
  start := rfl
  closed := by
    rintro _ node rfl hnode q hq hne
    simp only [kvsSkiptableCreate, createSkipNode, setNode_nodes, Function.update_self,
      Option.some.injEq] at hnode
    rw [← hnode] at hq
    exact absurd (List.eq_of_mem_replicate hq) hne

section Rounds

variable (L)

theorem scan_growing (less : SkipNode S → Bool) (i : ℕ) (p : Ptr) :
    Growing fun n => L.scan less i n p := by
  intro n r h
  induction n generalizing p with
  | zero => cases h
  | succ n ih =>
    simp only at h ⊢
    rw [scan] at h ⊢
    obtain ⟨next, hread, h⟩ := Option.bind_eq_some_iff.mp h
    rw [hread, Option.bind_some]
    split_ifs at h ⊢
    · obtain ⟨node, hnode, h⟩ := Option.bind_eq_some_iff.mp h
      rw [hnode, Option.bind_some]
      split_ifs at h ⊢
      · exact ih next h
      · exact h
    · exact h

theorem descend_growing (less : SkipNode S → Bool) (i : ℕ) (p : Ptr) (update : ℕ → Option Ptr) :
    Growing fun n => L.descend less n i p update := by
  induction i generalizing p update with
  | zero => exact (L.scan_growing less 0 p).bind fun _ => .const _
  | succ i ih => exact (L.scan_growing less (i + 1) p).bind fun u => ih u _

theorem zrangeStart_growing [LT S] [DecidableLT S] (min : S) (p : Ptr) :
    Growing fun n => L.zrangeStart min n p := by
  intro n r h
  induction n generalizing p with
  | zero => cases h
  | succ n ih =>
    simp only at h ⊢
    rw [zrangeStart] at h ⊢
    split_ifs at h ⊢
    · obtain ⟨node, hnode, h⟩ := Option.bind_eq_some_iff.mp h
      rw [hnode, Option.bind_some]
      split_ifs at h ⊢
      · obtain ⟨next, hread, h⟩ := Option.bind_eq_some_iff.mp h
        rw [hread, Option.bind_some]
        exact ih next h
      · exact h
    · exact h

theorem zadd_growing [LT S] [DecidableLT S] [BEq S] (p : Ptr) (level : ℕ) (key value : CString)
    (score : S) :
    Growing fun n => kvsSkiptableZadd n L p level key value score :=
  (L.descend_growing _ L.level L.header _).bind fun _ => .const _

theorem zrem_growing (key : CString) : Growing fun n => kvsSkiptableZrem n L key :=
  (L.descend_growing _ L.level L.header _).bind fun _ => .const _

theorem zrange_growing [LT S] [DecidableLT S] [LE S] [DecidableLE S] (min max : S) (count : ℕ) :
    Growing fun n => kvsSkiptableZrangeEntries n L min max count := by
  apply (Growing.const (L.read L.header 0)).bind
  intro first
  exact (L.zrangeStart_growing min first).bind fun _ => .const _

end Rounds

end SkipList
end KvStore
