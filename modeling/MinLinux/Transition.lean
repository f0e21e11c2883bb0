import Mathlib.Data.List.Basic

/-! Finite runs of an executable machine. A machine is a partial step function on
states and actions; the action carries every choice of the environment, so one
list of actions determines one run and all runs are all lists. -/
namespace MinLinux.Transition
variable {S T A B : Type}

/-- Runs the listed actions in order; a refused action ends the run. -/
def run (step : S → A → Option S) : S → List A → Option S
  | s, [] => some s
  | s, a :: rest => (step s a).bind fun t => run step t rest

section Runs
variable {step : S → A → Option S}

@[simp] theorem run_nil : run step s [] = some s := rfl

theorem run_cons_some : run step s (a :: rest) = some u ↔
    ∃ t, step s a = some t ∧ run step t rest = some u := by
  simp only [run, Option.bind_eq_some_iff]

theorem run_append : run step s (as ++ bs) = some u ↔
    ∃ t, run step s as = some t ∧ run step t bs = some u := by
  induction as generalizing s with
  | nil => simp
  | cons a rest ih =>
    rw [List.cons_append, run_cons_some]
    constructor
    · rintro ⟨middle, head, tail⟩
      obtain ⟨t, first, second⟩ := ih.mp tail
      exact ⟨t, run_cons_some.mpr ⟨middle, head, first⟩, second⟩
    · rintro ⟨t, first, second⟩
      obtain ⟨middle, head, tail⟩ := run_cons_some.mp first
      exact ⟨middle, head, ih.mpr ⟨t, tail, second⟩⟩

/-- What every step keeps, every run keeps. -/
theorem run_invariant {P : S → Prop} (keeps : ∀ {s a t}, P s → step s a = some t → P t)
    (initial : P s) (ran : run step s as = some t) : P t := by
  induction as generalizing s with
  | nil =>
    cases ran
    exact initial
  | cons a rest ih =>
    obtain ⟨middle, head, tail⟩ := run_cons_some.mp ran
    exact ih (keeps initial head) tail

end Runs

/-- Every step of the concrete machine is answered by a run of the abstract one. -/
def Simulates (step : S → A → Option S) (spec : T → B → Option T) (R : S → T → Prop) : Prop :=
  ∀ {s a s' t}, R s t → step s a = some s' → ∃ bs t', run spec t bs = some t' ∧ R s' t'

theorem Simulates.run {step : S → A → Option S} {spec : T → B → Option T} {R : S → T → Prop}
    (simulates : Simulates step spec R) (related : R s t)
    (ran : Transition.run step s as = some s') :
    ∃ bs t', Transition.run spec t bs = some t' ∧ R s' t' := by
  induction as generalizing s t with
  | nil =>
    cases ran
    exact ⟨[], t, rfl, related⟩
  | cons a rest ih =>
    obtain ⟨middle, head, tail⟩ := run_cons_some.mp ran
    obtain ⟨first, t', answered, related⟩ := simulates related head
    obtain ⟨second, t'', finished, related⟩ := ih related tail
    exact ⟨first ++ second, t'', run_append.mpr ⟨t', answered, finished⟩, related⟩

/-- A view of the states under which every step is a step of another machine shows all
runs as runs of that machine. -/
theorem run_view {step : S → A → Option S} {spec : T → A → Option T} {P : S → Prop} (f : S → T)
    (seen : ∀ {s} a, P s → (step s a).map f = spec (f s) a)
    (keeps : ∀ {s a t}, P s → step s a = some t → P t) (initial : P s) (acts : List A) :
    (run step s acts).map f = run spec (f s) acts := by
  induction acts generalizing s with
  | nil => rfl
  | cons a rest ih =>
    have shown := seen a initial
    rw [run, run]
    cases stepped : step s a with
    | none =>
      rw [stepped] at shown
      rw [← shown]
      rfl
    | some t =>
      rw [stepped] at shown
      rw [← shown]
      exact ih (keeps initial stepped)

/-- Machines that take every step together or refuse it together, where the second keeps
an invariant, have the same runs. -/
theorem run_lockstep {step : S → A → Option S} {spec : T → A → Option T} {R : S → T → Prop}
    {P : T → Prop} (lock : ∀ {s t} a, R s t → P t → Option.Rel R (step s a) (spec t a))
    (keeps : ∀ {t a t'}, P t → spec t a = some t' → P t') (related : R s t) (initial : P t)
    (acts : List A) : Option.Rel R (run step s acts) (run spec t acts) := by
  induction acts generalizing s t with
  | nil => exact .some related
  | cons a rest ih =>
    have together := lock a related initial
    rw [run, run]
    cases first : step s a <;> cases second : spec t a <;> rw [first, second] at together
    case none.none => exact .none
    case some.some =>
      cases together with
      | some related => exact ih related (keeps initial second)
    all_goals cases together

end MinLinux.Transition
