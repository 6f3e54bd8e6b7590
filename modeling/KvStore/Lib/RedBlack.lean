import Mathlib.Data.List.Basic
import Mathlib.Tactic.Common

/-! Red-black trees with one hole. A subtree and the path of frames above it are the two
halves of a tree, so that a rebalancing loop walks up by moving frames into the subtree. -/
namespace KvStore
namespace RedBlack

inductive Color
  | red
  | black
  deriving DecidableEq, Repr

inductive Side
  | left
  | right
  deriving DecidableEq, Repr

def Side.opp : Side → Side
  | left => right
  | right => left

@[simp] theorem Side.opp_opp (d : Side) : d.opp.opp = d := by cases d <;> rfl
@[simp] theorem Side.opp_ne (d : Side) : d.opp ≠ d := by cases d <;> simp [Side.opp]
@[simp] theorem Side.ne_opp (d : Side) : d ≠ d.opp := by cases d <;> simp [Side.opp]

theorem Side.eq_or_eq_opp (d e : Side) : e = d ∨ e = d.opp := by
  cases d <;> cases e <;> simp [Side.opp]

inductive RBTree (α : Type*)
  | nil
  | node (c : Color) (l : RBTree α) (a : α) (r : RBTree α)
  deriving DecidableEq

variable {α β : Type*}

namespace RBTree

/-- Leaves count as black. -/
def color : RBTree α → Color
  | nil => .black
  | node c _ _ _ => c

def paint (c : Color) : RBTree α → RBTree α
  | nil => nil
  | node _ l a r => node c l a r

def toList : RBTree α → List α
  | nil => []
  | node _ l a r => l.toList ++ a :: r.toList

/-- The node with `t` on side `d` and `s` on the other side. -/
def join : Side → Color → RBTree α → α → RBTree α → RBTree α
  | .left, c, t, a, s => node c t a s
  | .right, c, t, a, s => node c s a t

theorem join_opp (d : Side) (c : Color) (t s : RBTree α) (a : α) :
    join d.opp c t a s = join d c s a t := by cases d <;> rfl

@[simp] theorem color_join (d : Side) (c : Color) (t s : RBTree α) (a : α) :
    (join d c t a s).color = c := by cases d <;> rfl

@[simp] theorem paint_join (d : Side) (c e : Color) (t s : RBTree α) (a : α) :
    (join d c t a s).paint e = join d e t a s := by cases d <;> rfl

@[simp] theorem toList_paint (c : Color) (t : RBTree α) : (t.paint c).toList = t.toList := by
  cases t <;> rfl

theorem eq_join (d : Side) (c : Color) (l r : RBTree α) (a : α) :
    ∃ t s, node c l a r = join d c t a s := by
  cases d
  · exact ⟨l, r, rfl⟩
  · exact ⟨r, l, rfl⟩

/-- Rotation keeps the elements in order. -/
theorem toList_rotate (d : Side) (c e : Color) (t s u : RBTree α) (a b : α) :
    (join d e (join d c t a s) b u).toList = (join d c t a (join d e s b u)).toList := by
  cases d <;> simp [join, toList]

/-- No red node has a red child. -/
def NoRedRed : RBTree α → Prop
  | nil => True
  | node c l _ r => (c = .red → l.color = .black ∧ r.color = .black) ∧ l.NoRedRed ∧ r.NoRedRed

/-- The number of black nodes on each path from the root to a leaf. -/
def blacks : RBTree α → List ℕ
  | nil => [0]
  | node c l _ r => (l.blacks ++ r.blacks).map (· + if c = .black then 1 else 0)

/-- Root colour `c`, the same number `n` of black nodes on every path, no red-red edge. -/
inductive Balanced : RBTree α → Color → ℕ → Prop
  | nil : Balanced nil .black 0
  | red {l r : RBTree α} {a : α} {n : ℕ} (hl : Balanced l .black n) (hr : Balanced r .black n) :
      Balanced (node .red l a r) .red n
  | black {l r : RBTree α} {a : α} {n : ℕ} {c e : Color} (hl : Balanced l c n)
      (hr : Balanced r e n) : Balanced (node .black l a r) .black (n + 1)

theorem Balanced.color_eq {t : RBTree α} {c : Color} {n : ℕ} (h : t.Balanced c n) :
    t.color = c := by cases h <;> rfl

theorem Balanced.noRedRed {t : RBTree α} {c : Color} {n : ℕ} (h : t.Balanced c n) :
    t.NoRedRed := by
  induction h with
  | nil => trivial
  | red hl hr ihl ihr => exact ⟨fun _ => ⟨hl.color_eq, hr.color_eq⟩, ihl, ihr⟩
  | black _ _ ihl ihr => exact ⟨fun h => (by cases h), ihl, ihr⟩

theorem Balanced.blacks_eq {t : RBTree α} {c : Color} {n : ℕ} (h : t.Balanced c n) :
    ∀ k ∈ t.blacks, k = n := by
  induction h with
  | nil => simp [blacks]
  | red _ _ ihl ihr =>
    intro k hk
    simp only [blacks, List.mem_map, List.mem_append, reduceCtorEq, if_false, Nat.add_zero] at hk
    obtain ⟨k, hk | hk, rfl⟩ := hk
    · exact ihl k hk
    · exact ihr k hk
  | black _ _ ihl ihr =>
    intro k hk
    simp only [blacks, List.mem_map, List.mem_append, if_true] at hk
    obtain ⟨k, hk | hk, rfl⟩ := hk
    · rw [ihl k hk]
    · rw [ihr k hk]

theorem Balanced.join_red {t s : RBTree α} {a : α} {n : ℕ} (d : Side) (ht : t.Balanced .black n)
    (hs : s.Balanced .black n) : (join d .red t a s).Balanced .red n := by
  cases d
  · exact .red ht hs
  · exact .red hs ht

theorem Balanced.join_black {t s : RBTree α} {a : α} {n : ℕ} {c e : Color} (d : Side)
    (ht : t.Balanced c n) (hs : s.Balanced e n) :
    (join d .black t a s).Balanced .black (n + 1) := by
  cases d
  · exact .black ht hs
  · exact .black hs ht

theorem Balanced.of_join_red {t s : RBTree α} {a : α} {c : Color} {n : ℕ} {d : Side}
    (h : (join d .red t a s).Balanced c n) :
    c = .red ∧ t.Balanced .black n ∧ s.Balanced .black n := by
  cases d <;> cases h with
  | red hl hr => simp [hl, hr]

theorem Balanced.of_join_black {t s : RBTree α} {a : α} {c : Color} {n : ℕ} {d : Side}
    (h : (join d .black t a s).Balanced c n) :
    c = .black ∧ ∃ m, n = m + 1 ∧ (∃ e, t.Balanced e m) ∧ ∃ e, s.Balanced e m := by
  cases d <;> cases h with
  | black hl hr => exact ⟨rfl, _, rfl, ⟨_, by assumption⟩, ⟨_, by assumption⟩⟩

/-- A tree with a black node on every path has a node at its root. -/
theorem Balanced.exists_join {t : RBTree α} {c : Color} {n : ℕ} (d : Side)
    (h : t.Balanced c (n + 1)) : ∃ l a r, t = join d c l a r := by
  cases h with
  | red hl hr =>
    obtain ⟨x, y, h⟩ := eq_join d _ _ _ _
    exact ⟨x, _, y, h⟩
  | black hl hr =>
    obtain ⟨x, y, h⟩ := eq_join d _ _ _ _
    exact ⟨x, _, y, h⟩

theorem Balanced.exists_join_red {t : RBTree α} {n : ℕ} (d : Side) (h : t.Balanced .red n) :
    ∃ l a r, t = join d .red l a r := by
  cases h with
  | red hl hr =>
    obtain ⟨x, y, h⟩ := eq_join d _ _ _ _
    exact ⟨x, _, y, h⟩

theorem Balanced.paint_black {t : RBTree α} {c : Color} {n : ℕ} (h : t.Balanced c n) :
    ∃ m, (t.paint .black).Balanced .black m := by
  cases h with
  | nil => exact ⟨_, .nil⟩
  | red hl hr => exact ⟨_, .black hl hr⟩
  | black hl hr => exact ⟨_, .black hl hr⟩

end RBTree

open KvStore.RedBlack.RBTree

/-- A node on the path to the hole: the hole is on its `side`, `sib` on the other. -/
structure Frame (α : Type*) where
  side : Side
  color : Color
  elem : α
  sib : RBTree α

/-- The path above a hole, innermost frame first. -/
abbrev Ctx (α : Type*) := List (Frame α)

def Frame.fill (f : Frame α) (t : RBTree α) : RBTree α := join f.side f.color t f.elem f.sib

def plug : Ctx α → RBTree α → RBTree α
  | [], t => t
  | f :: ctx, t => plug ctx (f.fill t)

@[simp] theorem plug_nil (t : RBTree α) : plug [] t = t := rfl
@[simp] theorem plug_cons (f : Frame α) (ctx : Ctx α) (t : RBTree α) :
    plug (f :: ctx) t = plug ctx (f.fill t) := rfl

/-- Move the focus from a node to its subtree on side `d`. -/
theorem plug_inner (ctx : Ctx α) (d : Side) (c : Color) (t s : RBTree α) (a : α) :
    plug ctx (join d c t a s) = plug (⟨d, c, a, s⟩ :: ctx) t := rfl

/-- Move the focus from a node to its other subtree. -/
theorem plug_outer (ctx : Ctx α) (d : Side) (c : Color) (t s : RBTree α) (a : α) :
    plug ctx (join d c t a s) = plug (⟨d.opp, c, a, t⟩ :: ctx) s := by
  simp [Frame.fill, join_opp]

theorem plug_append (ctx ctx' : Ctx α) (t : RBTree α) :
    plug (ctx ++ ctx') t = plug ctx' (plug ctx t) := by
  induction ctx generalizing t with
  | nil => rfl
  | cons f ctx ih => exact ih (f.fill t)

/-- The elements to the left of the hole. -/
def before : Ctx α → List α
  | [] => []
  | ⟨.left, _, _, _⟩ :: ctx => before ctx
  | ⟨.right, _, a, s⟩ :: ctx => before ctx ++ s.toList ++ [a]

/-- The elements to the right of the hole. -/
def after : Ctx α → List α
  | [] => []
  | ⟨.left, _, a, s⟩ :: ctx => a :: s.toList ++ after ctx
  | ⟨.right, _, _, _⟩ :: ctx => after ctx

theorem toList_plug (ctx : Ctx α) (t : RBTree α) :
    (plug ctx t).toList = before ctx ++ t.toList ++ after ctx := by
  induction ctx generalizing t with
  | nil => simp [before, after]
  | cons f ctx ih =>
    obtain ⟨d, c, a, s⟩ := f
    cases d <;> simp [ih, before, after, Frame.fill, join, toList]

theorem before_append (ctx ctx' : Ctx α) : before (ctx ++ ctx') = before ctx' ++ before ctx := by
  induction ctx with
  | nil => simp [before]
  | cons f ctx ih =>
    obtain ⟨d, c, a, s⟩ := f
    cases d <;> simp [before, ih]

theorem after_append (ctx ctx' : Ctx α) : after (ctx ++ ctx') = after ctx ++ after ctx' := by
  induction ctx with
  | nil => simp [after]
  | cons f ctx ih =>
    obtain ⟨d, c, a, s⟩ := f
    cases d <;> simp [after, ih]

theorem toList_plug_congr (ctx : Ctx α) {t s : RBTree α} (h : t.toList = s.toList) :
    (plug ctx t).toList = (plug ctx s).toList := by
  rw [toList_plug, toList_plug, h]

/-- Any tree with root colour `c` and `n` black nodes a path makes a whole balanced tree
with a black root when put into the hole. -/
def Fits : Ctx α → Color → ℕ → Prop
  | [], c, _ => c = .black
  | ⟨_, .red, _, s⟩ :: ctx, c, n => c = .black ∧ s.Balanced .black n ∧ Fits ctx .red n
  | ⟨_, .black, _, s⟩ :: ctx, _, n => (∃ e, s.Balanced e n) ∧ Fits ctx .black (n + 1)

theorem Fits.plug {ctx : Ctx α} {t : RBTree α} {c : Color} {n : ℕ} (h : Fits ctx c n)
    (ht : t.Balanced c n) : ∃ m, (plug ctx t).Balanced .black m := by
  induction ctx generalizing t c n with
  | nil =>
    cases h
    exact ⟨n, ht⟩
  | cons f ctx ih =>
    obtain ⟨d, e, a, s⟩ := f
    cases e with
    | red =>
      obtain ⟨rfl, hs, hc⟩ := h
      exact ih hc (.join_red d ht hs)
    | black =>
      obtain ⟨⟨e, hs⟩, hc⟩ := h
      exact ih hc (.join_black d ht hs)

theorem Fits.of_plug {ctx : Ctx α} {t : RBTree α} {m : ℕ}
    (h : (RedBlack.plug ctx t).Balanced .black m) : ∃ c n, t.Balanced c n ∧ Fits ctx c n := by
  induction ctx generalizing t with
  | nil => exact ⟨_, _, h, rfl⟩
  | cons f ctx ih =>
    obtain ⟨d, e, a, s⟩ := f
    obtain ⟨c, n, hb, hf⟩ := ih h
    cases e with
    | red =>
      obtain ⟨rfl, ht, hs⟩ := Balanced.of_join_red hb
      exact ⟨_, _, ht, rfl, hs, hf⟩
    | black =>
      obtain ⟨rfl, k, rfl, ⟨e, ht⟩, hs⟩ := Balanced.of_join_black hb
      exact ⟨_, _, ht, hs, hf⟩

/-- A hole that takes a red subtree also takes a black one. -/
theorem Fits.black {ctx : Ctx α} {c : Color} {n : ℕ} (h : Fits ctx c n) : Fits ctx .black n := by
  match ctx, h with
  | [], _ => exact rfl
  | ⟨_, .red, _, _⟩ :: _, h => exact ⟨rfl, h.2⟩
  | ⟨_, .black, _, _⟩ :: _, h => exact h

/-- The other subtree of the parent of a hole is balanced. -/
theorem Fits.sibling {d : Side} {c e : Color} {a : α} {s : RBTree α} {ctx : Ctx α} {n : ℕ}
    (h : Fits (⟨d, e, a, s⟩ :: ctx) c n) : ∃ e', s.Balanced e' n := by
  cases e with
  | red => exact ⟨_, h.2.1⟩
  | black => exact h.1

/-- Below a black node a hole takes either colour. -/
theorem Fits.any {f : Frame α} {ctx : Ctx α} {c : Color} {n : ℕ} (h : Fits (f :: ctx) c n)
    (hf : f.color = .black) (e : Color) : Fits (f :: ctx) e n := by
  obtain ⟨d, c', a, s⟩ := f
  cases hf
  exact h

/-- Only the colours and the shapes of a path matter, not its elements. -/
theorem Fits.setElem {ctx ctx' : Ctx α} {f g : Frame α} {c : Color} {n : ℕ}
    (h : Fits (ctx ++ f :: ctx') c n) (hc : g.color = f.color) (hs : g.sib = f.sib) :
    Fits (ctx ++ g :: ctx') c n := by
  induction ctx generalizing c n with
  | nil =>
    obtain ⟨d, c', a, s⟩ := f
    obtain ⟨d', c'', a', s'⟩ := g
    cases hc
    cases hs
    cases c' <;> exact h
  | cons k ctx ih =>
    obtain ⟨d, e, a, s⟩ := k
    cases e with
    | red => exact ⟨h.1, h.2.1, ih h.2.2⟩
    | black => exact ⟨h.1, ih h.2⟩

end RedBlack
end KvStore
