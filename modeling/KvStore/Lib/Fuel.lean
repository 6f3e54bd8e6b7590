import Mathlib.Order.Lattice
import Mathlib.Order.Nat

/-! Loops cut off by a fuel argument. A loop is a function of the number of rounds it may
take, with `none` for a run that was cut off; `Returns` says that it ends of its own accord. -/
namespace KvStore
namespace Fuel

universe u v
variable {α : Type u} {β : Type v}

/-- From some amount of fuel on, the computation gives the result `a`. -/
def Returns (f : ℕ → Option α) (a : α) : Prop :=
  ∃ n, ∀ m, n ≤ m → f m = some a

theorem Returns.of_eq {f : ℕ → Option α} {a : α} (h : ∀ n, f n = some a) : Returns f a :=
  ⟨0, fun m _ => h m⟩

theorem Returns.some (a : α) : Returns (fun _ => Option.some a) a := .of_eq fun _ => rfl

theorem Returns.congr {f g : ℕ → Option α} {a : α} (hf : Returns f a) (h : ∀ n, g n = f n) :
    Returns g a := by
  obtain ⟨n, hn⟩ := hf
  exact ⟨n, fun m hm => (h m).trans (hn m hm)⟩

/-- One more round of a loop that goes on as `g`. -/
theorem Returns.succ {f g : ℕ → Option α} {a : α} (h : ∀ n, f (n + 1) = g n)
    (hg : Returns g a) : Returns f a := by
  obtain ⟨n, hn⟩ := hg
  refine ⟨n + 1, fun m hm => ?_⟩
  obtain ⟨k, rfl⟩ : ∃ k, m = k + 1 := ⟨m - 1, by omega⟩
  rw [h]
  exact hn k (by omega)

/-- The last round of a loop. -/
theorem Returns.last {f : ℕ → Option α} {a : α} (h : ∀ n, f (n + 1) = Option.some a) :
    Returns f a := Returns.succ h (.some a)

/-- The computation ends within `k` rounds. -/
theorem Returns.after {f : ℕ → Option α} {a : α} (k : ℕ) (h : ∀ n, f (n + k) = Option.some a) :
    Returns f a := by
  refine ⟨k, fun m hm => ?_⟩
  obtain ⟨n, rfl⟩ := Nat.exists_eq_add_of_le' hm
  exact h n

theorem Returns.bind {f : ℕ → Option α} {g : α → ℕ → Option β} {a : α} {b : β}
    (hf : Returns f a) (hg : Returns (g a) b) : Returns (fun n => (f n).bind fun a => g a n) b := by
  obtain ⟨n, hn⟩ := hf
  obtain ⟨k, hk⟩ := hg
  refine ⟨max n k, fun m hm => ?_⟩
  change (f m).bind _ = _
  rw [hn m (le_trans (le_max_left n k) hm)]
  exact hk m (le_trans (le_max_right n k) hm)

theorem Returns.unique {f : ℕ → Option α} {a b : α} (ha : Returns f a) (hb : Returns f b) :
    a = b := by
  obtain ⟨n, hn⟩ := ha
  obtain ⟨k, hk⟩ := hb
  have h := (hn (max n k) (le_max_left n k)).symm.trans (hk (max n k) (le_max_right n k))
  exact Option.some.inj h

end Fuel
end KvStore
