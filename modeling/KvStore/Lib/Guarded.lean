import Mathlib.Tactic.Common

/-! Machines whose steps may fail to come back. A rule to show that every step of a run does
what is asked of it exactly when every step is made in a state that allows it. -/
namespace KvStore
namespace Guarded

variable {σ α ρ : Type*} {step : σ → α → Option (ρ × σ)} {P : σ → α → ρ → σ → Prop}
  {C : σ → α → Prop}

/-- Every request of the list comes back, and does what `P` asks for. -/
def Throughout (step : σ → α → Option (ρ × σ)) (P : σ → α → ρ → σ → Prop) : σ → List α → Prop
  | _, [] => True
  | s, a :: as => ∃ r s', step s a = some (r, s') ∧ P s a r s' ∧ Throughout step P s' as

/-- Every request of the list is made in a state that `C` allows it in. -/
def Allowed (step : σ → α → Option (ρ × σ)) (C : σ → α → Prop) : σ → List α → Prop
  | _, [] => True
  | s, a :: as => C s a ∧ ∀ r s', step s a = some (r, s') → Allowed step C s' as

/-- An invariant `J` under which `C` is what one step needs makes it what a run needs. -/
theorem throughout_iff {J : σ → Prop}
    (hkeep : ∀ s a, J s → C s a → ∃ r s', step s a = some (r, s') ∧ P s a r s' ∧ J s')
    (hbreak : ∀ s a r s', J s → step s a = some (r, s') → P s a r s' → C s a)
    {s : σ} (hs : J s) (as : List α) : Throughout step P s as ↔ Allowed step C s as := by
  induction as generalizing s with
  | nil => exact Iff.rfl
  | cons a as ih =>
    constructor
    · rintro ⟨r, s', hr, hP, has⟩
      have hC := hbreak s a r s' hs hr hP
      obtain ⟨r₁, s₁, hr₁, -, hs₁⟩ := hkeep s a hs hC
      refine ⟨hC, ?_⟩
      intro r₂ s₂ hr₂
      rw [hr₁] at hr hr₂
      cases hr
      cases hr₂
      exact (ih hs₁).mp has
    · rintro ⟨hC, has⟩
      obtain ⟨r, s', hr, hP, hs'⟩ := hkeep s a hs hC
      exact ⟨r, s', hr, hP, (ih hs').mpr (has r s' hr)⟩

/-- Every request of the list that comes back does what `P` asks for, as long as they do. -/
def Whenever (step : σ → α → Option (ρ × σ)) (P : σ → α → ρ → σ → Prop) : σ → List α → Prop
  | _, [] => True
  | s, a :: as => ∀ r s', step s a = some (r, s') → P s a r s' ∧ Whenever step P s' as

/-- A demand that meets another one in each step, under an invariant `J` that it keeps, meets it in
a run. -/
theorem Whenever.imp {Q : σ → α → ρ → σ → Prop} {J : σ → Prop}
    (hstep : ∀ s a r s', J s → step s a = some (r, s') → P s a r s' → Q s a r s' ∧ J s')
    {s : σ} (hs : J s) {as : List α} (h : Whenever step P s as) : Whenever step Q s as := by
  induction as generalizing s with
  | nil => trivial
  | cons a as ih =>
    intro r s' hr
    obtain ⟨hP, has⟩ := h r s' hr
    obtain ⟨hQ, hs'⟩ := hstep s a r s' hs hr hP
    exact ⟨hQ, ih hs' has⟩

/-- Under an invariant `J` that allowed steps keep, two demands that amount to the same in each step
do so in a run. -/
theorem whenever_congr {Q : σ → α → ρ → σ → Prop} {J : σ → Prop}
    (hkeep : ∀ s a r s', J s → C s a → step s a = some (r, s') → J s')
    (hiff : ∀ s a r s', J s → C s a → step s a = some (r, s') → (P s a r s' ↔ Q s a r s'))
    {s : σ} (hs : J s) {as : List α} (has : Allowed step C s as) :
    Whenever step P s as ↔ Whenever step Q s as := by
  induction as generalizing s with
  | nil => exact Iff.rfl
  | cons a as ih =>
    obtain ⟨hC, has⟩ := has
    refine forall_congr' fun r => forall_congr' fun s' => forall_congr' fun hr => ?_
    exact and_congr (hiff s a r s' hs hC hr) (ih (hkeep s a r s' hs hC hr) (has r s' hr))

/-- What one allowed step does under an invariant `J`, every step of an allowed run does. -/
theorem Allowed.whenever {J : σ → Prop}
    (hkeep : ∀ s a r s', J s → C s a → step s a = some (r, s') → P s a r s' ∧ J s')
    {s : σ} (hs : J s) {as : List α} (has : Allowed step C s as) : Whenever step P s as := by
  induction as generalizing s with
  | nil => trivial
  | cons a as ih =>
    obtain ⟨hC, has⟩ := has
    intro r s' hr
    obtain ⟨hP, hs'⟩ := hkeep s a r s' hs hC hr
    exact ⟨hP, ih hs' (has r s' hr)⟩

/-- The same rule for runs that may end in a request that does not come back; a request that
is not allowed comes back without doing what is asked. -/
theorem whenever_iff {J : σ → Prop}
    (hkeep : ∀ s a r s', J s → C s a → step s a = some (r, s') → P s a r s' ∧ J s')
    (hbreak : ∀ s a, J s → ¬ C s a → ∃ r s', step s a = some (r, s') ∧ ¬ P s a r s')
    {s : σ} (hs : J s) (as : List α) : Whenever step P s as ↔ Allowed step C s as := by
  refine ⟨?_, Allowed.whenever hkeep hs⟩
  induction as generalizing s with
  | nil => exact fun _ => trivial
  | cons a as ih =>
    intro h
    have hC : C s a := by
      by_contra hC
      obtain ⟨r, s', hr, hP⟩ := hbreak s a hs hC
      exact hP (h r s' hr).1
    refine ⟨hC, ?_⟩
    intro r s' hr
    exact ih (hkeep s a r s' hs hC hr).2 (h r s' hr).2

/-- The first step of a run is known. -/
theorem Allowed.cons {s t : σ} {a : α} {r : ρ} {as : List α} (hC : C s a)
    (hr : step s a = some (r, t)) (has : Allowed step C t as) : Allowed step C s (a :: as) := by
  refine ⟨hC, ?_⟩
  intro r₁ s₁ hr₁
  rw [hr] at hr₁
  cases hr₁
  exact has

/-- Under an invariant `J` that steps keep while `V` and `C` allow them, what amounts to `C` in one
state amounts to it in a run. -/
theorem allowed_iff {V D : σ → α → Prop} {J : σ → Prop}
    (hkeep : ∀ s a r s', J s → V s a → C s a → step s a = some (r, s') → J s')
    (hiff : ∀ s a, J s → V s a → (D s a ↔ C s a)) {s : σ} (hs : J s) {as : List α}
    (hV : Allowed step V s as) : Allowed step D s as ↔ Allowed step C s as := by
  induction as generalizing s with
  | nil => exact Iff.rfl
  | cons a as ih =>
    obtain ⟨hVa, hV⟩ := hV
    have hstep := hiff s a hs hVa
    constructor
    · rintro ⟨hD, has⟩
      have hC := hstep.mp hD
      refine ⟨hC, ?_⟩
      intro r s' hr
      exact (ih (hkeep s a r s' hs hVa hC hr) (hV r s' hr)).mp (has r s' hr)
    · rintro ⟨hC, has⟩
      refine ⟨hstep.mpr hC, ?_⟩
      intro r s' hr
      exact (ih (hkeep s a r s' hs hVa hC hr) (hV r s' hr)).mpr (has r s' hr)

/-- The state behind a run whose requests all come back. -/
def finish (step : σ → α → Option (ρ × σ)) : σ → List α → Option σ
  | s, [] => some s
  | s, a :: as => (step s a).bind fun x => finish step x.2 as

/-- Requests that are allowed in every state. -/
theorem Allowed.of_forall {s : σ} {as : List α} (h : ∀ a ∈ as, ∀ s, C s a) :
    Allowed step C s as := by
  induction as generalizing s with
  | nil => trivial
  | cons a as ih =>
    refine ⟨h a List.mem_cons_self s, ?_⟩
    intro r s' _
    exact ih fun b hb => h b (List.mem_cons_of_mem a hb)

/-- An invariant that allowed steps keep holds behind an allowed run. -/
theorem Allowed.finish {J : σ → Prop}
    (hkeep : ∀ s a r s', J s → C s a → step s a = some (r, s') → J s')
    {s s₁ : σ} {as : List α} (has : Allowed step C s as) (hs : J s)
    (hrun : Guarded.finish step s as = some s₁) : J s₁ := by
  induction as generalizing s with
  | nil =>
    cases hrun
    exact hs
  | cons a as ih =>
    obtain ⟨⟨r, s'⟩, hr, hrun⟩ := Option.bind_eq_some_iff.mp hrun
    exact ih (has.2 r s' hr) (hkeep s a r s' hs has.1 hr) hrun

/-- The last step of a run that comes back does what is asked. -/
theorem Whenever.last {s s₁ s₂ : σ} {as : List α} {a : α} {r : ρ}
    (h : Whenever step P s (as ++ [a])) (hrun : finish step s as = some s₁)
    (hr : step s₁ a = some (r, s₂)) : P s₁ a r s₂ := by
  induction as generalizing s with
  | nil =>
    cases hrun
    exact (h r s₂ hr).1
  | cons b as ih =>
    obtain ⟨⟨r', s'⟩, hb, hrun⟩ := Option.bind_eq_some_iff.mp hrun
    exact ih (h r' s' hb).2 hrun

end Guarded
end KvStore
