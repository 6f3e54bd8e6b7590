import Mathlib.Data.List.FinRange
import Mathlib.Data.List.Nodup
import Mathlib.Data.List.Perm.Basic
import Mathlib.Logic.Function.Basic
import Mathlib.Tactic.Common

/-! Finite maps as the specification of a store: what a call does to the map, which lists of
entries represent it, and the rule that carries a simulation over whole runs. -/
namespace KvStore

section Runs

variable {σ α ρ μ : Type*}

/-- A run of a machine, with each request and its reply in the log. -/
inductive Runs (step : σ → α → ρ → σ → Prop) : σ → List (α × ρ) → σ → Prop
  | nil (s : σ) : Runs step s [] s
  | cons {s s' s'' : σ} {a : α} {r : ρ} {log : List (α × ρ)} (h : step s a r s')
      (hs : Runs step s' log s'') : Runs step s ((a, r) :: log) s''

/-- The replies of a deterministic machine to a list of requests. -/
def replies (next : μ → α → μ) (reply : μ → α → ρ) : μ → List α → List ρ
  | _, [] => []
  | m, a :: as => reply m a :: replies next reply (next m a) as

/-- A step-by-step simulation gives the same replies along every run. -/
theorem Runs.simulates {step : σ → α → ρ → σ → Prop} {next : μ → α → μ} {reply : μ → α → ρ}
    {R : σ → μ → Prop} {s s' : σ} {m : μ} {log : List (α × ρ)} (hrun : Runs step s log s')
    (h : R s m) (hstep : ∀ {s s' : σ} {m : μ} {a : α} {r : ρ}, R s m → step s a r s' →
      r = reply m a ∧ R s' (next m a)) :
    log.map Prod.snd = replies next reply m (log.map Prod.fst) ∧
      R s' ((log.map Prod.fst).foldl next m) := by
  induction hrun generalizing m with
  | nil s => exact ⟨rfl, h⟩
  | cons hs _ ih =>
    obtain ⟨hr, hR⟩ := hstep h hs
    obtain ⟨hlog, hend⟩ := ih hR
    refine ⟨?_, hend⟩
    simp only [List.map_cons, replies, hlog, hr]

/-- A property that every step keeps holds at the end of every run. -/
theorem Runs.keeps {step : σ → α → ρ → σ → Prop} {P : σ → Prop} {s s' : σ}
    {log : List (α × ρ)} (hrun : Runs step s log s') (h : P s)
    (hstep : ∀ {s s' : σ} {a : α} {r : ρ}, P s → step s a r s' → P s') : P s' := by
  induction hrun with
  | nil s => exact h
  | cons hs _ ih => exact ih (hstep h hs)

/-- A simulation that answers every request of a kind has a run for all lists of these. -/
theorem exists_runs {step : σ → α → ρ → σ → Prop} {next : μ → α → μ} {reply : μ → α → ρ}
    (R : σ → μ → Prop) (ok : α → Prop) (hstep : ∀ {s : σ} {m : μ} {a : α}, R s m → ok a →
      ∃ s', step s a (reply m a) s' ∧ R s' (next m a)) {s : σ} {m : μ} (h : R s m) (as : List α)
    (hok : ∀ a ∈ as, ok a) :
    ∃ s', Runs step s (as.zip (replies next reply m as)) s' ∧ R s' (as.foldl next m) := by
  induction as generalizing s m with
  | nil => exact ⟨s, .nil s, h⟩
  | cons a as ih =>
    obtain ⟨t, hs, ht⟩ := hstep h (hok a List.mem_cons_self)
    obtain ⟨s', hrun, hend⟩ := ih ht fun b hb => hok b (List.mem_cons_of_mem a hb)
    exact ⟨s', .cons hs hrun, hend⟩

/-- The state between two parts of a run. -/
theorem Runs.split {step : σ → α → ρ → σ → Prop} {s s' : σ} {pre post : List (α × ρ)}
    (hrun : Runs step s (pre ++ post) s') : ∃ t, Runs step s pre t ∧ Runs step t post s' := by
  induction pre generalizing s with
  | nil => exact ⟨s, .nil s, hrun⟩
  | cons x pre ih =>
    cases hrun with
    | cons h hs =>
      obtain ⟨t, hpre, hpost⟩ := ih hs
      exact ⟨t, .cons h hpre, hpost⟩

end Runs

namespace KeyValue

variable {κ ν : Type*} [DecidableEq κ]

/-- The requests of a store. -/
inductive Call (κ ν : Type*)
  | set (k : κ) (v : ν)
  | get (k : κ)
  | mod (k : κ) (v : ν)
  | del (k : κ)
  | exist (k : κ)

def Call.key : Call κ ν → κ
  | set k _ => k
  | get k => k
  | mod k _ => k
  | del k => k
  | exist k => k

/-- What a call gives back: a status code or what its value points to. -/
inductive Reply (ρ : Type*)
  | status (code : Int)
  | value (v : ρ)

/-- What a call makes of a map: `set` only adds, `mod` only replaces. -/
def next (m : κ → Option ν) : Call κ ν → κ → Option ν
  | .set k v => if (m k).isSome then m else Function.update m k (some v)
  | .get _ => m
  | .mod k v => if (m k).isSome then Function.update m k (some v) else m
  | .del k => Function.update m k none
  | .exist _ => m

/-- `set` stands in for what is not there. -/
theorem next_set (m : κ → Option ν) (k : κ) (v : ν) (j : κ) :
    next m (.set k v) j = (m j).or (if k = j then some v else none) := by
  rw [next]
  by_cases hk : (m k).isSome
  · rw [if_pos hk]
    by_cases hj : k = j
    · rw [Option.or_of_isSome (hj ▸ hk)]
    · rw [if_neg hj, Option.or_none]
  · rw [if_neg hk]
    by_cases hj : k = j
    · subst hj
      rw [Function.update_self, if_pos rfl, Option.not_isSome_iff_eq_none.mp hk, Option.none_or]
    · rw [Function.update_of_ne (Ne.symm hj), if_neg hj, Option.or_none]

/-- The list holds each entry of the map once, and nothing else. -/
structure Represents (l : List (κ × ν)) (m : κ → Option ν) : Prop where
  nodup : (l.map Prod.fst).Nodup
  mem_iff : ∀ k v, m k = some v ↔ (k, v) ∈ l

variable {l r : List (κ × ν)} {m : κ → Option ν} {k : κ} {v w : ν}

omit [DecidableEq κ] in
theorem Represents.nil : Represents ([] : List (κ × ν)) fun _ => none :=
  ⟨by simp, by simp⟩

omit [DecidableEq κ] in
theorem Represents.perm (h : Represents l m) (hp : r.Perm l) : Represents r m :=
  ⟨(hp.map Prod.fst).nodup_iff.mpr h.nodup, fun k v => by rw [h.mem_iff, hp.mem_iff]⟩

omit [DecidableEq κ] in
theorem Represents.isSome_iff (h : Represents l m) : (m k).isSome ↔ k ∈ l.map Prod.fst := by
  rw [Option.isSome_iff_exists]
  simp [h.mem_iff]

omit [DecidableEq κ] in
theorem Represents.eq_none (h : Represents l m) (hk : k ∉ l.map Prod.fst) : m k = none := by
  rw [← h.isSome_iff] at hk
  simpa using hk

omit [DecidableEq κ] in
theorem Represents.isSome (h : Represents l m) (hk : (k, v) ∈ l) : (m k).isSome := by
  rw [(h.mem_iff k v).mpr hk]
  rfl

theorem Represents.cons (h : Represents l m) (hk : k ∉ l.map Prod.fst) :
    Represents ((k, v) :: l) (Function.update m k (some v)) := by
  refine ⟨by simpa using ⟨by simpa using hk, h.nodup⟩, fun j w => ?_⟩
  by_cases hj : j = k
  · subst hj
    have hw : (j, w) ∉ l := fun hw => hk (List.mem_map.mpr ⟨_, hw, rfl⟩)
    simp [hw, eq_comm]
  · simp [hj, h.mem_iff]

omit [DecidableEq κ] in
theorem Represents.middle (h : Represents (l ++ (k, v) :: r) m) :
    k ∉ (l ++ r).map Prod.fst ∧ ((l ++ r).map Prod.fst).Nodup := by
  have hn := h.nodup
  rwa [List.map_append, List.map_cons, List.nodup_middle, ← List.map_append,
    List.nodup_cons] at hn

theorem Represents.erase (h : Represents (l ++ (k, v) :: r) m) :
    Represents (l ++ r) (Function.update m k none) := by
  obtain ⟨hk, hn⟩ := h.middle
  refine ⟨hn, fun j w => ?_⟩
  by_cases hj : j = k
  · subst hj
    have hw : (j, w) ∉ l ++ r := fun hw => hk (List.mem_map.mpr ⟨_, hw, rfl⟩)
    simpa using hw
  · simp [hj, h.mem_iff]

theorem Represents.replace (h : Represents (l ++ (k, v) :: r) m) :
    Represents (l ++ (k, w) :: r) (Function.update m k (some w)) := by
  have hc := h.erase.cons (v := w) h.middle.1
  rw [Function.update_idem] at hc
  exact hc.perm List.perm_middle

omit [DecidableEq κ] in
/-- Replacing one bucket of a table replaces one stretch of the list of all its elements. -/
theorem exists_flatMap_update {α : Type*} {n : ℕ} (f : Fin n → List α) (i : Fin n) :
    ∃ A B, (∀ l, (List.finRange n).flatMap (Function.update f i l) = A ++ l ++ B) ∧
      ∀ x ∈ A ++ B, ∃ j, j ≠ i ∧ x ∈ f j := by
  obtain ⟨s, t, hst⟩ := List.append_of_mem (List.mem_finRange i)
  have hn := List.nodup_finRange n
  rw [hst, List.nodup_middle, List.nodup_cons, List.mem_append, not_or] at hn
  obtain ⟨⟨hs, ht⟩, -⟩ := hn
  have hcongr : ∀ u : List (Fin n), i ∉ u → ∀ l,
      u.flatMap (Function.update f i l) = u.flatMap f := by
    intro u hu l
    refine List.flatMap_congr fun j hj => ?_
    have hji : j ≠ i := fun he => hu (he ▸ hj)
    rw [Function.update_of_ne hji]
  refine ⟨s.flatMap f, t.flatMap f, fun l => ?_, fun x hx => ?_⟩
  · rw [hst, List.flatMap_append, List.flatMap_cons, hcongr s hs, hcongr t ht,
      Function.update_self, List.append_assoc]
  · simp only [List.mem_append, List.mem_flatMap] at hx
    obtain ⟨j, hj, hx⟩ | ⟨j, hj, hx⟩ := hx
    · exact ⟨j, fun he => hs (he ▸ hj), hx⟩
    · exact ⟨j, fun he => ht (he ▸ hj), hx⟩

end KeyValue
end KvStore
