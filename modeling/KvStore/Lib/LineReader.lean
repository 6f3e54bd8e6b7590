import Mathlib.Data.List.Basic
import Mathlib.Tactic.Common

/-! Reading a text line by line into a buffer. A read takes what the buffer has room for and stops
behind a line end, so that a line longer than the buffer is taken for several. -/
namespace KvStore
namespace LineReader

variable {α : Type*} [DecidableEq α] {nl : α} {n : ℕ} {line rest bs c : List α}

/-- One read with room for `n` elements: what it takes, and what is left. -/
def fgets (nl : α) : ℕ → List α → List α × List α
  | 0, bs => ([], bs)
  | _ + 1, [] => ([], [])
  | n + 1, b :: bs =>
    if b = nl then ([b], bs)
    else
      let r := fgets nl n bs
      (b :: r.1, r.2)

theorem fgets_cons_of_ne {b : α} (h : b ≠ nl) :
    fgets nl (n + 1) (b :: bs) = (b :: (fgets nl n bs).1, (fgets nl n bs).2) := by
  rw [fgets, if_neg h]

theorem fgets_append (nl : α) (n : ℕ) (bs : List α) :
    (fgets nl n bs).1 ++ (fgets nl n bs).2 = bs := by
  induction n generalizing bs with
  | zero => rfl
  | succ n ih =>
    cases bs with
    | nil => rfl
    | cons b bs =>
      by_cases h : b = nl
      · rw [fgets, if_pos h]
        rfl
      · rw [fgets_cons_of_ne h, List.cons_append, ih]

theorem length_fgets_le (nl : α) (n : ℕ) (bs : List α) : (fgets nl n bs).1.length ≤ n := by
  induction n generalizing bs with
  | zero => exact Nat.le_refl 0
  | succ n ih =>
    cases bs with
    | nil => exact Nat.zero_le _
    | cons b bs =>
      by_cases h : b = nl
      · rw [fgets, if_pos h]
        exact Nat.succ_le_succ (Nat.zero_le n)
      · rw [fgets_cons_of_ne h]
        exact Nat.succ_le_succ (ih bs)

/-- With room for something a read takes something. -/
theorem length_fgets_lt (h : bs ≠ []) : (fgets nl (n + 1) bs).2.length < bs.length := by
  have hlen := congrArg List.length (fgets_append nl (n + 1) bs)
  rw [List.length_append] at hlen
  have hpos : 0 < (fgets nl (n + 1) bs).1.length := by
    cases bs with
    | nil => exact absurd rfl h
    | cons b bs =>
      rw [fgets]
      split_ifs
      · exact Nat.one_pos
      · exact Nat.succ_pos _
  omega

/-- A line that the buffer has room for is taken with its line end. -/
theorem fgets_short (hnl : nl ∉ line) (h : line.length < n) :
    fgets nl n (line ++ nl :: rest) = (line ++ [nl], rest) := by
  induction line generalizing n with
  | nil =>
    cases n with
    | zero => exact absurd h (Nat.lt_irrefl 0)
    | succ n =>
      rw [List.nil_append, fgets, if_pos rfl]
      rfl
  | cons b line ih =>
    rw [List.mem_cons, not_or] at hnl
    cases n with
    | zero => exact absurd h (Nat.not_lt_zero _)
    | succ n =>
      rw [List.cons_append, fgets_cons_of_ne (Ne.symm hnl.1), ih hnl.2 (Nat.lt_of_succ_lt_succ h)]
      rfl

/-- A stretch without a line end that fills the buffer is cut where the buffer ends. -/
theorem fgets_long (hnl : nl ∉ line) (h : n ≤ line.length) :
    fgets nl n (line ++ rest) = (line.take n, line.drop n ++ rest) := by
  induction line generalizing n with
  | nil =>
    obtain rfl := Nat.le_zero.mp h
    rfl
  | cons b line ih =>
    rw [List.mem_cons, not_or] at hnl
    cases n with
    | zero => rfl
    | succ n =>
      rw [List.cons_append, fgets_cons_of_ne (Ne.symm hnl.1), ih hnl.2 (Nat.le_of_succ_le_succ h)]
      rfl

/-- What the reads take one after another, with room for `n + 1` elements each. -/
def reads (nl : α) (n : ℕ) (bs : List α) : List (List α) :=
  if bs = [] then []
  else
    (fgets nl (n + 1) bs).1 :: reads nl n (fgets nl (n + 1) bs).2
termination_by bs.length
decreasing_by exact length_fgets_lt ‹_›

theorem reads_nil : reads nl n [] = [] := by
  rw [reads, if_pos rfl]

theorem reads_of_ne (h : bs ≠ []) :
    reads nl n bs = (fgets nl (n + 1) bs).1 :: reads nl n (fgets nl (n + 1) bs).2 := by
  rw [reads, if_neg h]

theorem length_of_mem_reads (h : c ∈ reads nl n bs) : c.length ≤ n + 1 ∧ c.length ≤ bs.length := by
  induction hk : bs.length using Nat.strongRecOn generalizing bs with
  | ind k ih =>
    by_cases hbs : bs = []
    · rw [hbs, reads_nil] at h
      exact absurd h List.not_mem_nil
    · rw [reads_of_ne hbs] at h
      have hlt : (fgets nl (n + 1) bs).2.length < bs.length := length_fgets_lt hbs
      obtain rfl | h := List.mem_cons.mp h
      · refine ⟨length_fgets_le _ _ _, ?_⟩
        have hlen := congrArg List.length (fgets_append nl (n + 1) bs)
        rw [List.length_append] at hlen
        omega
      · have hle := ih _ (hk ▸ hlt) h rfl
        omega

/-- A line that the buffer has room for. -/
theorem reads_short (hnl : nl ∉ line) (h : line.length ≤ n) :
    reads nl n (line ++ nl :: rest) = (line ++ [nl]) :: reads nl n rest := by
  rw [reads_of_ne (by simp), fgets_short hnl (Nat.lt_succ_of_le h)]

theorem reads_long (hnl : nl ∉ line) (h : n + 1 ≤ line.length) (hrest : rest ≠ []) :
    reads nl n (line ++ rest) = line.take (n + 1) :: reads nl n (line.drop (n + 1) ++ rest) := by
  rw [reads_of_ne (by simp [hrest]), fgets_long hnl h]

/-- A line end ends what is read of a line, however many reads it took. -/
theorem reads_line (hnl : nl ∉ line) :
    reads nl n (line ++ nl :: rest) = reads nl n (line ++ [nl]) ++ reads nl n rest := by
  induction hk : line.length using Nat.strongRecOn generalizing line with
  | ind k ih =>
    by_cases h : line.length ≤ n
    · rw [reads_short hnl h, reads_short hnl h, reads_nil]
      rfl
    · have hdrop : nl ∉ line.drop (n + 1) := fun hm => hnl (List.mem_of_mem_drop hm)
      have hlt : (line.drop (n + 1)).length < k := by
        rw [List.length_drop]
        omega
      rw [reads_long hnl (by omega) (List.cons_ne_nil _ _),
        reads_long hnl (by omega) (List.cons_ne_nil _ _), ih _ hlt hdrop rfl]
      rfl

/-- The lines of a text are read one by one. -/
theorem reads_flatMap {ls : List (List α)} (h : ∀ l ∈ ls, nl ∉ l) :
    reads nl n (ls.flatMap fun l => l ++ [nl]) = ls.flatMap fun l => reads nl n (l ++ [nl]) := by
  induction ls with
  | nil => exact reads_nil
  | cons l ls ih =>
    rw [List.flatMap_cons, List.flatMap_cons, List.append_assoc, List.singleton_append,
      reads_line (h l List.mem_cons_self), ih fun l' hl' => h l' (List.mem_cons_of_mem l hl')]

end LineReader
end KvStore
