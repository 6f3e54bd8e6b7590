import KvStore.Lib.KeyValue

/-! Systems that take their steps on events, and the history of the calls that several clients make
of one object: the order in which they take effect. -/
namespace KvStore
namespace History

section Drives

variable {σ ε γ δ : Type*} {step : σ → ε → σ → Prop} {s s' : σ} {es : List ε}

/-- The events take the system from one state to the other. -/
inductive Drives (step : σ → ε → σ → Prop) : σ → List ε → σ → Prop
  | nil (s : σ) : Drives step s [] s
  | cons {s s₁ s' : σ} {e : ε} {es : List ε} (he : step s e s₁) (hs : Drives step s₁ es s') :
    Drives step s (e :: es) s'

theorem Drives.append {es' : List ε} {s'' : σ} (h : Drives step s es s')
    (h' : Drives step s' es' s'') : Drives step s (es ++ es') s'' := by
  induction h with
  | nil s => exact h'
  | cons he _ ih => exact .cons he (ih h')

/-- Where each step adds to a record what its event says, one record tells of every state of a run:
what the events up to there have added. -/
theorem Drives.records {R : σ → List γ → Prop} {labels : ε → List δ} {label : γ → δ}
    (hdet : ∀ s e s₁ s₂, step s e s₁ → step s e s₂ → s₁ = s₂)
    (hstep : ∀ s e s' g, R s g → step s e s' →
      ∃ c : List γ, c.map label = labels e ∧ R s' (g ++ c))
    {g : List γ} (h : Drives step s es s') (hg : R s g) :
    ∃ g' : List γ, g'.map label = es.flatMap labels ∧ ∀ pre s₁, pre <+: es → Drives step s pre s₁ →
      R s₁ (g ++ g'.take (pre.flatMap labels).length) := by
  induction h generalizing g with
  | nil s =>
    refine ⟨[], rfl, fun pre s₁ hpre hs₁ => ?_⟩
    rw [List.prefix_nil] at hpre
    subst hpre
    cases hs₁
    simpa using hg
  | @cons s s₁ s' e es he _ ih =>
    obtain ⟨c, hc, hg₁⟩ := hstep s e s₁ g hg he
    obtain ⟨g', hg', hall⟩ := ih hg₁
    refine ⟨c ++ g', by rw [List.map_append, hc, hg', List.flatMap_cons], ?_⟩
    intro pre s₂ hpre hs₂
    cases pre with
    | nil =>
      cases hs₂
      simpa using hg
    | cons e' pre =>
      obtain ⟨rfl, hrest⟩ := List.cons_prefix_cons.mp hpre
      cases hs₂ with
      | cons he' hs₂ =>
        obtain rfl := hdet s e' _ _ he he'
        have hlen : (labels e').length = c.length := by rw [← hc, List.length_map]
        rw [List.flatMap_cons, List.length_append, hlen, List.take_length_add_append,
          ← List.append_assoc]
        exact hall pre s₂ hrest hs₂

/-- A weight that every step makes less bounds the number of events. -/
theorem Drives.length_le (Inv : σ → Prop) (weight : σ → ℕ)
    (hstep : ∀ s e s', Inv s → step s e s' → Inv s' ∧ weight s' < weight s)
    (h : Drives step s es s') (hs : Inv s) : es.length + weight s' ≤ weight s := by
  induction h with
  | nil s => exact (Nat.zero_add _).le
  | cons he _ ih =>
    obtain ⟨hs₁, hless⟩ := hstep _ _ _ hs he
    have hrest := ih hs₁
    rw [List.length_cons]
    omega

end Drives

/-- A call that was served: who made it, the request, and the answer. -/
structure Served (ι α β : Type*) where
  client : ι
  request : α
  answer : β

section Served

variable {ι α β σ : Type*} {answers : σ → α → β → σ → Prop} {s s' s'' : σ}
  {h : List (Served ι α β)} {c : Served ι α β}

/-- The calls, one after the other, take the object from the first state to the last. -/
def Replays (answers : σ → α → β → σ → Prop) (s : σ) (h : List (Served ι α β)) (s' : σ) : Prop :=
  Runs answers s (h.map fun c => (c.request, c.answer)) s'

theorem Replays.nil : Replays answers s ([] : List (Served ι α β)) s := Runs.nil s

theorem runs_append {α β : Type*} {answers : σ → α → β → σ → Prop} {log log' : List (α × β)}
    (hs : Runs answers s log s') (hs' : Runs answers s' log' s'') :
    Runs answers s (log ++ log') s'' := by
  induction hs with
  | nil s => exact hs'
  | cons h _ ih => exact .cons h (ih hs')

theorem Replays.call (hs : Replays answers s h s') (hc : answers s' c.request c.answer s'') :
    Replays answers s (h ++ [c]) s'' := by
  rw [Replays, List.map_append]
  exact runs_append hs (.cons hc (.nil s''))

/-- The object behind the first call. -/
theorem Replays.first (hs : Replays answers s (c :: h) s'') :
    ∃ s₁, answers s c.request c.answer s₁ ∧ Replays answers s₁ h s'' := by
  cases hs with
  | cons hc hs => exact ⟨_, hc, hs⟩

theorem Replays.split {pre post : List (Served ι α β)} (hs : Replays answers s (pre ++ post) s'') :
    ∃ s₁, Replays answers s pre s₁ ∧ Replays answers s₁ post s'' := by
  rw [Replays, List.map_append] at hs
  exact hs.split

/-- The object before and behind one of the calls. -/
theorem Replays.between {pre post : List (Served ι α β)}
    (hs : Replays answers s (pre ++ c :: post) s'') : ∃ s₁, Replays answers s pre s₁ ∧
      ∃ s₂, answers s₁ c.request c.answer s₂ ∧ Replays answers s₂ post s'' := by
  obtain ⟨s₁, hpre, hpost⟩ := hs.split
  exact ⟨s₁, hpre, hpost.first⟩

/-- A call with its request in another form. -/
def Served.encode {α' : Type*} (f : α → α') (c : Served ι α β) : Served ι α' β :=
  ⟨c.client, f c.request, c.answer⟩

/-- When every request is one of a program in this form, the history is one of the programs. -/
theorem exists_encoded {α' : Type*} {f : α → α'} {programs : ι → List α}
    {h : List (Served ι α' β)} (hh : ∀ c ∈ h, c.request ∈ (programs c.client).map f) :
    ∃ calls : List (Served ι α β), h = calls.map (Served.encode f) ∧
      ∀ c ∈ calls, c.request ∈ programs c.client := by
  induction h with
  | nil => exact ⟨[], rfl, nofun⟩
  | cons c h ih =>
    obtain ⟨calls, rfl, hcalls⟩ := ih fun d hd => hh d (List.mem_cons_of_mem c hd)
    obtain ⟨q, hq, hrequest⟩ := List.mem_map.mp (hh c List.mem_cons_self)
    refine ⟨⟨c.client, q, c.answer⟩ :: calls, ?_, List.forall_mem_cons.mpr ⟨hq, hcalls⟩⟩
    rw [List.map_cons, Served.encode, hrequest]

variable [DecidableEq ι]

/-- The calls of one client. -/
def callsOf (i : ι) (h : List (Served ι α β)) : List (Served ι α β) :=
  h.filter fun c => c.client = i

theorem callsOf_append_self : callsOf c.client (h ++ [c]) = callsOf c.client h ++ [c] := by
  rw [callsOf, List.filter_append, List.filter_singleton, decide_eq_true rfl]
  rfl

theorem callsOf_append_of_ne {i : ι} (hi : i ≠ c.client) :
    callsOf i (h ++ [c]) = callsOf i h := by
  rw [callsOf, List.filter_append, List.filter_singleton, decide_eq_false hi.symm]
  exact List.append_nil _

end Served

end History
end KvStore
