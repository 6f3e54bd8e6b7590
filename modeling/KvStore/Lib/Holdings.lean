import Mathlib.Data.List.Nodup
import Mathlib.Data.List.Perm.Basic
import Mathlib.Tactic.Common

/-! Owners and what they hold. Every item of a stock belongs to one owner, and a change that one
owner goes through keeps it so when the stock changes with him. -/
namespace KvStore
namespace Holdings

open scoped List

variable {ι α : Type*} {owners : List ι} {f f' : ι → List α} {out out' : List α} {o : ι}

/-- The items are those that the owners hold, each once for every time it is held. -/
def Shared (owners : List ι) (f : ι → List α) (out : List α) : Prop :=
  out ~ owners.flatMap f

theorem Shared.mem {p : α} (h : Shared owners f out) (ho : o ∈ owners) (hp : p ∈ f o) : p ∈ out :=
  h.mem_iff.mpr (List.mem_flatMap.mpr ⟨o, ho, hp⟩)

/-- Holdings that are `c` times as long as others. -/
theorem length_flatMap_mul {β : Type*} {g : ι → List β} {c : ℕ}
    (h : ∀ o ∈ owners, (f o).length = c * (g o).length) :
    (owners.flatMap f).length = c * (owners.flatMap g).length := by
  induction owners with
  | nil => rfl
  | cons o owners ih =>
    have hrest := ih fun o' ho' => h o' (List.mem_cons_of_mem o ho')
    rw [List.flatMap_cons, List.flatMap_cons, List.length_append, List.length_append, hrest,
      h o List.mem_cons_self, Nat.mul_add]

theorem length_flatMap_const {c : ℕ} (h : ∀ o ∈ owners, (f o).length = c) :
    (owners.flatMap f).length = c * owners.length := by
  have hmul := length_flatMap_mul (f := f) (g := fun o => [o]) (c := c)
    fun o ho => (h o ho).trans (Nat.mul_one c).symm
  rwa [List.flatMap_singleton'] at hmul

variable [DecidableEq ι]

/-- The holdings of one owner apart from those of the others. -/
theorem flatMap_perm (ho : o ∈ owners) (f : ι → List α) :
    owners.flatMap f ~ f o ++ (owners.erase o).flatMap f :=
  (List.perm_cons_erase ho).flatMap_right f

/-- One owner comes from `f o` to `f' o` as the stock comes from `out` to `out'`. -/
theorem Shared.change (h : Shared owners f out) (hn : owners.Nodup) (ho : o ∈ owners)
    (hf : ∀ o' ∈ owners, o' ≠ o → f' o' = f o') (hnet : out' ++ f o ~ out ++ f' o) :
    Shared owners f' out' := by
  have hothers : (owners.erase o).flatMap f' = (owners.erase o).flatMap f := by
    apply List.flatMap_congr
    intro o' ho'
    obtain ⟨hne, ho'⟩ := (hn.mem_erase_iff).mp ho'
    exact hf o' ho' hne
  have hsplit := flatMap_perm ho f'
  rw [hothers] at hsplit
  have hall : out' ++ f o ~ owners.flatMap f' ++ f o :=
    calc out' ++ f o ~ out ++ f' o := hnet
      _ ~ (f o ++ (owners.erase o).flatMap f) ++ f' o :=
        (h.trans (flatMap_perm ho f)).append_right _
      _ ~ f' o ++ (f o ++ (owners.erase o).flatMap f) := List.perm_append_comm
      _ ~ f' o ++ ((owners.erase o).flatMap f ++ f o) := List.perm_append_comm.append_left _
      _ = f' o ++ (owners.erase o).flatMap f ++ f o := (List.append_assoc ..).symm
      _ ~ owners.flatMap f' ++ f o := hsplit.symm.append_right _
  exact (List.perm_append_right_iff _).mp hall

omit [DecidableEq ι] in
theorem Shared.congr (h : Shared owners f out) (hf : ∀ o ∈ owners, f' o = f o) :
    Shared owners f' out := by
  rw [Shared, List.flatMap_congr hf]
  exact h

end Holdings
end KvStore
