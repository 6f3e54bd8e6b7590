import KvStore.Lib.Fuel
import Mathlib.Data.Option.Basic

/-! Two computations side by side. `Option.Rel` relates what they give, `Alike` what loops with a
fuel argument give in the end: related results, or none in either. -/
namespace KvStore
namespace Fuel

variable {α β γ δ : Type*} {R : α → β → Prop} {Q : γ → δ → Prop}

theorem rel_bind {o : Option α} {o' : Option β} {k : α → Option γ} {l : β → Option δ}
    (h : Option.Rel R o o') (hk : ∀ a b, R a b → Option.Rel Q (k a) (l b)) :
    Option.Rel Q (o.bind k) (o'.bind l) := by
  cases h with
  | none => exact .none
  | some hr => exact hk _ _ hr

theorem rel_refl {R : α → α → Prop} (h : ∀ a, R a a) (o : Option α) : Option.Rel R o o := by
  cases o with
  | none => exact .none
  | some a => exact .some (h a)

/-- A result stays when there is more fuel. -/
def Growing (f : ℕ → Option α) : Prop := ∀ n a, f n = some a → f (n + 1) = some a

theorem Growing.const (o : Option α) : Growing fun _ => o := fun _ _ h => h

theorem Growing.bind {f : ℕ → Option α} {k : α → ℕ → Option γ} (hf : Growing f)
    (hk : ∀ a, Growing (k a)) : Growing fun n => (f n).bind fun a => k a n := by
  intro n c h
  obtain ⟨a, ha, hc⟩ := Option.bind_eq_some_iff.mp h
  exact Option.bind_eq_some_iff.mpr ⟨a, hf n a ha, hk a n c hc⟩

theorem Growing.returns {f : ℕ → Option α} {n : ℕ} {a : α} (hf : Growing f) (h : f n = some a) :
    Returns f a := by
  refine ⟨n, fun m hm => ?_⟩
  induction m, hm using Nat.le_induction with
  | base => exact h
  | succ m hm ih => exact hf m a ih

/-- What is made of a result does not change whether there is one. -/
theorem Growing.exists_returns_bind_iff {f : ℕ → Option α} {g : α → γ} (hf : Growing f) :
    (∃ c, Returns (fun n => (f n).bind fun a => some (g a)) c) ↔ ∃ a, Returns f a := by
  constructor
  · rintro ⟨c, n, hn⟩
    obtain ⟨a, ha, -⟩ := Option.bind_eq_some_iff.mp (hn n le_rfl)
    exact ⟨a, hf.returns ha⟩
  · rintro ⟨a, ha⟩
    exact ⟨g a, ha.bind (g := fun a _ => some (g a)) (.some _)⟩

/-- From some amount of fuel on there is no result. -/
def Stuck (f : ℕ → Option α) : Prop := ∃ n, ∀ m, n ≤ m → f m = none

theorem Stuck.of_eq {f : ℕ → Option α} (h : ∀ n, f n = none) : Stuck f := ⟨0, fun m _ => h m⟩

theorem Stuck.not_returns {f : ℕ → Option α} {a : α} (hs : Stuck f) : ¬ Returns f a := by
  rintro ⟨k, hk⟩
  obtain ⟨n, hn⟩ := hs
  have h := hk (max n k) (le_max_right n k)
  rw [hn (max n k) (le_max_left n k)] at h
  cases h

theorem Stuck.bind {f : ℕ → Option α} (hs : Stuck f) (k : α → ℕ → Option γ) :
    Stuck fun n => (f n).bind fun a => k a n := by
  obtain ⟨n, hn⟩ := hs
  refine ⟨n, fun m hm => ?_⟩
  dsimp only
  rw [hn m hm, Option.bind_none]

theorem Returns.bind_stuck {f : ℕ → Option α} {k : α → ℕ → Option γ} {a : α} (hf : Returns f a)
    (hk : Stuck (k a)) : Stuck fun n => (f n).bind fun a => k a n := by
  obtain ⟨n, hn⟩ := hf
  obtain ⟨j, hj⟩ := hk
  refine ⟨max n j, fun m hm => ?_⟩
  dsimp only
  rw [hn m (le_trans (le_max_left n j) hm), Option.bind_some]
  exact hj m (le_trans (le_max_right n j) hm)

/-- Both computations give related results in the end, or both give none. -/
def Alike (R : α → β → Prop) (f : ℕ → Option α) (g : ℕ → Option β) : Prop :=
  (∃ a b, Returns f a ∧ Returns g b ∧ R a b) ∨ Stuck f ∧ Stuck g

theorem Alike.of_returns {f : ℕ → Option α} {g : ℕ → Option β} {a : α} {b : β} (hf : Returns f a)
    (hg : Returns g b) (hR : R a b) : Alike R f g := .inl ⟨a, b, hf, hg, hR⟩

theorem Alike.of_rel {f : ℕ → Option α} {g : ℕ → Option β} (hf : Growing f) (hg : Growing g)
    (h : ∀ n, Option.Rel R (f n) (g n)) : Alike R f g := by
  by_cases hs : ∃ n a, f n = some a
  · obtain ⟨n, a, ha⟩ := hs
    have hn := h n
    rw [ha] at hn
    obtain ⟨b, hb⟩ : ∃ b, g n = some b := by
      cases hgn : g n with
      | none =>
        rw [hgn] at hn
        cases hn
      | some b => exact ⟨b, rfl⟩
    rw [hb] at hn
    cases hn with
    | some hR => exact .of_returns (hf.returns ha) (hg.returns hb) hR
  · have hnone : ∀ n, f n = none := fun n => Option.eq_none_iff_forall_ne_some.mpr fun a ha => hs ⟨n, a, ha⟩
    refine .inr ⟨.of_eq hnone, .of_eq fun n => ?_⟩
    have hn := h n
    rw [hnone n] at hn
    generalize g n = o at hn
    cases hn
    rfl

/-- Computations without a loop. -/
theorem Alike.of_rel_const {o : Option α} {o' : Option β} (h : Option.Rel R o o') :
    Alike R (fun _ => o) fun _ => o' := .of_rel (.const o) (.const o') fun _ => h

theorem Alike.bind {f : ℕ → Option α} {g : ℕ → Option β} {k : α → ℕ → Option γ}
    {l : β → ℕ → Option δ} (h : Alike R f g) (hk : ∀ a b, R a b → Alike Q (k a) (l b)) :
    Alike Q (fun n => (f n).bind fun a => k a n) fun n => (g n).bind fun b => l b n := by
  obtain ⟨a, b, hf, hg, hR⟩ | ⟨hf, hg⟩ := h
  · obtain ⟨c, d, hc, hd, hQ⟩ | ⟨hc, hd⟩ := hk a b hR
    · exact .of_returns (hf.bind hc) (hg.bind hd) hQ
    · exact .inr ⟨hf.bind_stuck hc, hg.bind_stuck hd⟩
  · exact .inr ⟨hf.bind k, hg.bind l⟩

theorem Alike.symm {R' : β → α → Prop} {f : ℕ → Option α} {g : ℕ → Option β} (h : Alike R f g)
    (hR : ∀ a b, R a b → R' b a) : Alike R' g f :=
  h.imp (fun ⟨a, b, hf, hg, hab⟩ => ⟨b, a, hg, hf, hR a b hab⟩) And.symm

theorem Alike.trans {S : α → γ → Prop} {T : β → γ → Prop} {f : ℕ → Option α} {g : ℕ → Option β}
    {h : ℕ → Option γ} (hfg : Alike R f g) (hgh : Alike T g h)
    (hS : ∀ a b c, R a b → T b c → S a c) : Alike S f h := by
  obtain ⟨a, b, hf, hg, hR⟩ | ⟨hf, hg⟩ := hfg
  · obtain ⟨b', c, hg', hh, hT⟩ | ⟨hg', -⟩ := hgh
    · rw [hg'.unique hg] at hT
      exact .of_returns hf hh (hS a b c hR hT)
    · exact absurd hg hg'.not_returns
  · obtain ⟨b', c, hg', -⟩ | ⟨-, hh⟩ := hgh
    · exact absurd hg' hg.not_returns
    · exact .inr ⟨hf, hh⟩

end Fuel
end KvStore
