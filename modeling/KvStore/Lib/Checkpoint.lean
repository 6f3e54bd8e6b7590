import KvStore.Lib.KeyValue

/-! An object in memory that is lost and memory that stays: calls change the first, a save writes the
second, and a restart takes up what was saved. -/
namespace KvStore

section Refines

variable {σ α ρ μ : Type*} {step : σ → α → ρ → σ → Prop} {step' : μ → α → ρ → μ → Prop}
  {s s' : σ} {m : μ} {log : List (α × ρ)}

/-- A machine that may choose follows every run when it can follow each of its steps. -/
theorem Runs.refines (R : σ → μ → Prop) (hrun : Runs step s log s') (h : R s m)
    (hstep : ∀ a r, (a, r) ∈ log → ∀ s m s', R s m → step s a r s' →
      ∃ m', step' m a r m' ∧ R s' m') : ∃ m', Runs step' m log m' ∧ R s' m' := by
  induction hrun generalizing m with
  | nil s => exact ⟨m, .nil m, h⟩
  | @cons s s₁ s' a r log hs _ ih =>
    obtain ⟨m₁, hm₁, h₁⟩ := hstep a r List.mem_cons_self s m s₁ h hs
    obtain ⟨m', hm', h'⟩ := ih h₁ fun b t hb => hstep b t (List.mem_cons_of_mem _ hb)
    exact ⟨m', .cons hm₁ hm', h'⟩

/-- A property that the steps of a run keep holds behind it. -/
theorem Runs.keeps_mem {Q : σ → Prop} (hrun : Runs step s log s') (h : Q s)
    (hstep : ∀ a r, (a, r) ∈ log → ∀ s s', Q s → step s a r s' → Q s') : Q s' := by
  induction hrun with
  | nil s => exact h
  | @cons s s₁ s' a r log hs _ ih =>
    have h₁ := hstep a r List.mem_cons_self s s₁ h hs
    exact ih h₁ fun b t hb => hstep b t (List.mem_cons_of_mem _ hb)

end Refines

namespace Checkpoint

/-- What is in memory, and what was saved. -/
structure Memory (μ : Type*) where
  volatile : μ
  durable : μ

/-- A call, a save, or the end of the program and its next start. -/
inductive Event (α σ : Type*)
  | call (a : α)
  | save (x : σ)
  | restart

variable {μ α σ ρ : Type*} {next : μ → α → μ} {reply : μ → α → ρ}
  {written : σ → μ → μ → μ → Option ρ → Prop} {M M' : Memory μ} {log : List (Event α σ × Option ρ)}

/-- One step, where `written x v d d'` tells what the save `x` of `v` makes of `d`. -/
inductive Step (next : μ → α → μ) (reply : μ → α → ρ) (written : σ → μ → μ → μ → Option ρ → Prop) :
    Memory μ → Event α σ → Option ρ → Memory μ → Prop
  | call (M : Memory μ) (a : α) :
    Step next reply written M (.call a) (some (reply M.volatile a)) ⟨next M.volatile a, M.durable⟩
  | save {M : Memory μ} {x : σ} {d : μ} {r : Option ρ} (h : written x M.volatile M.durable d r) :
    Step next reply written M (.save x) r ⟨M.volatile, d⟩
  | restart (M : Memory μ) : Step next reply written M .restart none ⟨M.durable, M.durable⟩

/-- What both memories have is never lost when calls keep it and saves carry it over. -/
theorem Step.kept {Q : μ → Prop} (hrun : Runs (Step next reply written) M log M')
    (hv : Q M.volatile) (hd : Q M.durable) (hcall : ∀ v a, Q v → Q (next v a))
    (hsave : ∀ x r, (.save x, r) ∈ log → ∀ v d d', written x v d d' r → Q v → Q d → Q d') :
    Q M'.volatile ∧ Q M'.durable := by
  apply hrun.keeps_mem (Q := fun M => Q M.volatile ∧ Q M.durable) ⟨hv, hd⟩
  rintro e r hmem M M' ⟨hv, hd⟩ hs
  cases hs with
  | call a => exact ⟨hcall _ _ hv, hd⟩
  | save h => exact ⟨hv, hsave _ _ hmem _ _ _ h hv hd⟩
  | restart => exact ⟨hd, hd⟩

/-- A property of the memory that is lost, kept between restarts only. -/
theorem Step.kept_volatile {Q : μ → Prop} (hrun : Runs (Step next reply written) M log M')
    (hv : Q M.volatile) (hcall : ∀ v a, Q v → Q (next v a))
    (hno : ∀ r, (.restart, r) ∉ log) : Q M'.volatile := by
  apply hrun.keeps_mem (Q := fun M => Q M.volatile) hv
  intro e r hmem M M' hv hs
  cases hs with
  | call a => exact hcall _ _ hv
  | save h => exact hv
  | restart => exact absurd hmem (hno none)

/-- A property of what was saved, kept by every save. -/
theorem Step.kept_durable {Q : μ → Prop} (hrun : Runs (Step next reply written) M log M')
    (hd : Q M.durable)
    (hsave : ∀ x r, (.save x, r) ∈ log → ∀ v d d', written x v d d' r → Q d → Q d') :
    Q M'.durable := by
  apply hrun.keeps_mem (Q := fun M => Q M.durable) hd
  intro e r hmem M M' hd hs
  cases hs with
  | call a => exact hd
  | save h => exact hsave _ _ hmem _ _ _ h hd
  | restart => exact hd

/-- The calls among the events. -/
def calls (log : List (Event α σ × Option ρ)) : List α :=
  log.filterMap fun x =>
    match x.1 with
    | .call a => some a
    | _ => none

/-- Between restarts the memory that is lost is what the calls make of it. -/
theorem Step.volatile_eq (hrun : Runs (Step next reply written) M log M')
    (hno : ∀ r, (.restart, r) ∉ log) : M'.volatile = (calls log).foldl next M.volatile := by
  induction hrun with
  | nil M => rfl
  | @cons M M₁ M' e r log hs _ ih =>
    have hrest := ih fun r' hr' => hno r' (List.mem_cons_of_mem _ hr')
    cases hs with
    | call a => exact hrest
    | save h => exact hrest
    | restart => exact absurd List.mem_cons_self (hno none)

end Checkpoint
end KvStore
