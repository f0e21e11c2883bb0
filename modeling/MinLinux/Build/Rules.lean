import MinLinux.Build.Target

/-! Rules for reasoning about calls of targets: what a call completes, and when it keeps
a property of the build. -/
namespace MinLinux.Build
variable {T W : Type}

/-- The target `u` occurs as a call somewhere in the body. -/
inductive Body.Calls (u : T) : Body T W → Prop where
  | here : Calls u (.call u next)
  | next : Calls u next → Calls u (.call t next)
  | act : Calls u (next w) → Calls u (.act change next)

/-- The call graph: declared dependencies and calls made from bodies. -/
def Edge (targets : T → Target T W) (t u : T) : Prop :=
  .target u ∈ (targets t).depends ∨ (targets t).body.Calls u

theorem andThen_of_ok {out : Status × State T W} {next : State T W → Status × State T W}
    (ok : out.1 = .ok) : andThen out next = next out.2 := by
  obtain ⟨status, s⟩ := out
  cases ok
  rfl

theorem andThen_ok {out : Status × State T W} {next : State T W → Status × State T W}
    (ok : (andThen out next).1 = .ok) : out.1 = .ok ∧ andThen out next = next out.2 := by
  have first : out.1 = .ok := by
    obtain ⟨status, s⟩ := out
    cases status with
    | ok => rfl
    | raised => cases ok
    | starved => cases ok
  exact ⟨first, andThen_of_ok first⟩

theorem andThen_returns {out : Status × State T W} {next : State T W → Status × State T W}
    (first : out.1 = .ok) (second : ∀ s, (next s).1 = .ok) : (andThen out next).1 = .ok := by
  rw [andThen_of_ok first]
  exact second out.2

theorem andThen_assoc (out : Status × State T W) (first second : State T W → Status × State T W) :
    andThen (andThen out first) second = andThen out fun s => andThen (first s) second := by
  obtain ⟨status, s⟩ := out
  cases status with
  | ok => rfl
  | raised => rfl
  | starved => rfl

theorem runNames_append [DecidableEq T] (targets : T → Target T W) (available : String → Option T)
    (fuel : Nat) (names later : List String) (s : State T W) :
    runNames targets available fuel (names ++ later) s =
      andThen (runNames targets available fuel names s) (runNames targets available fuel later) := by
  induction names generalizing s with
  | nil => rfl
  | cons name rest ih =>
    rw [List.cons_append, runNames, runNames]
    cases available name with
    | none => exact ih _
    | some t =>
      dsimp only
      rw [andThen_assoc]
      congr 1
      funext s
      exact ih s

theorem perform_completes {depend call : T → State T W → Status × State T W}
    {target : Target T W} (ok : (perform depend call target t s).1 = .ok) :
    t ∈ (perform depend call target t s).2.calledTargets := by
  rw [perform] at ok ⊢
  obtain ⟨-, same⟩ := andThen_ok ok
  rw [same] at ok ⊢
  obtain ⟨-, same⟩ := andThen_ok ok
  rw [same]
  exact List.mem_append_right _ (List.mem_singleton.mpr rfl)

/-- A call that returns leaves its target completed. -/
theorem onTarget_completes [DecidableEq T] {targets : T → Target T W}
    (ok : (onTarget targets fuel origin t s).1 = .ok) :
    t ∈ (onTarget targets fuel origin t s).2.calledTargets := by
  cases fuel with
  | zero => cases ok
  | succ fuel =>
    rw [onTarget] at ok ⊢
    split at ok
    · rename_i done
      rw [if_pos done]
      exact done
    · rename_i fresh
      rw [if_neg fresh]
      exact perform_completes ok

/-- A call of a completed target changes nothing but the trace. -/
theorem onTarget_again [DecidableEq T] {targets : T → Target T W} {s : State T W}
    (done : t ∈ s.calledTargets) : (onTarget targets fuel origin t s).2.world = s.world := by
  cases fuel with
  | zero => rfl
  | succ fuel =>
    rw [onTarget, if_pos done]
    rfl

section Keeps
variable {P : State T W → Prop} {s : State T W}

theorem andThen_keeps {out : Status × State T W} {next : State T W → Status × State T W}
    (first : P out.2) (second : out.1 = .ok → P (next out.2).2) : P (andThen out next).2 := by
  obtain ⟨status, s⟩ := out
  cases status with
  | ok => exact second rfl
  | raised => exact first
  | starved => exact first

/-- Every change of the world a body can make keeps the property. -/
def Body.Keeps (P : State T W → Prop) : Body T W → Prop
  | .done => True
  | .raise => True
  | .call _ next => next.Keeps P
  | .act change next =>
      (∀ s, P s → P { s with world := change s.world }) ∧ ∀ w, (next w).Keeps P

theorem Body.keeps_of_stable (stable : ∀ s w, P s → P { s with world := w }) (body : Body T W) :
    body.Keeps P := by
  induction body with
  | done => trivial
  | raise => trivial
  | call t next ih => exact ih
  | act change next ih => exact ⟨fun s => stable s _, ih⟩

variable (logs : ∀ s e, P s → P (s.log e))
include logs

theorem runDepends_keeps {call : T → State T W → Status × State T W} (t : T)
    (depends : List (Dependency T W))
    (plain : ∀ run, .plain run ∈ depends → ∀ s w, run s.world = some w → P s →
      P { s with world := w })
    (calls : ∀ d, .target d ∈ depends → ∀ s, P s → P (call d s).2) (holds : P s) :
    P (runDepends call t depends s).2 := by
  induction depends generalizing s with
  | nil => exact holds
  | cons dependency rest ih =>
    have later := fun {s} (holds : P s) =>
      ih (fun run member => plain run (List.mem_cons_of_mem _ member))
        (fun d member => calls d (List.mem_cons_of_mem _ member)) holds
    cases dependency with
    | target d =>
      have first := calls d List.mem_cons_self s holds
      exact andThen_keeps first fun _ => later first
    | plain run =>
      rw [runDepends]
      cases ran : run s.world with
      | none => exact logs _ _ holds
      | some w => exact later (plain run List.mem_cons_self s w ran holds)

theorem runBody_keeps {call : T → State T W → Status × State T W} (t : T) (body : Body T W)
    (keeps : body.Keeps P) (calls : ∀ u, body.Calls u → ∀ s, P s → P (call u s).2) (holds : P s) :
    P (runBody call t body s).2 := by
  induction body generalizing s with
  | done => exact holds
  | raise => exact logs _ _ holds
  | call u next ih =>
    have first := calls u .here s holds
    exact andThen_keeps first fun _ => ih keeps (fun v called => calls v (.next called)) first
  | act change next ih =>
    exact ih _ (keeps.2 _) (fun v called => calls v (.act called)) (keeps.1 s holds)

theorem perform_keeps {depend call : T → State T W → Status × State T W} {target : Target T W}
    (plain : ∀ run, .plain run ∈ target.depends → ∀ s w, run s.world = some w → P s →
      P { s with world := w })
    (depends : ∀ d, .target d ∈ target.depends → ∀ s, P s → P (depend d s).2)
    (keeps : target.body.Keeps P) (calls : ∀ u, target.body.Calls u → ∀ s, P s → P (call u s).2)
    (completes : ∀ s, P s → P (s.complete t)) (holds : P s) :
    P (perform depend call target t s).2 := by
  have first := runDepends_keeps logs t target.depends plain depends holds
  refine andThen_keeps first fun _ => ?_
  have second := runBody_keeps logs t target.body keeps calls (logs _ (.start t) first)
  exact andThen_keeps second fun _ => completes _ second

/-- What every target of a set closed under calls keeps while it is performed, every
call of such a target keeps. -/
theorem onTarget_keeps [DecidableEq T] {targets : T → Target T W} (Q : T → Prop)
    (performs : ∀ t depend call, Q t → (∀ u, Q u → ∀ s, P s → P (depend u s).2) →
      (∀ u, Q u → ∀ s, P s → P (call u s).2) → ∀ s, t ∉ s.calledTargets → P s →
      P (perform depend call (targets t) t s).2)
    (inside : Q t) (holds : P s) : P (onTarget targets fuel origin t s).2 := by
  induction fuel generalizing t s origin with
  | zero => exact holds
  | succ fuel ih =>
    rw [onTarget]
    split
    · exact logs _ _ holds
    · rename_i fresh
      refine performs t _ _ inside ?_ ?_ _ fresh (logs _ _ (logs _ _ holds))
      · intro u below s holds
        exact ih below holds
      · intro u below s holds
        exact ih below holds

theorem runNames_keeps [DecidableEq T] {targets : T → Target T W} {available : String → Option T}
    (calls : ∀ t s, P s → P (onTarget targets fuel .commandLine t s).2) (names : List String)
    (holds : P s) : P (runNames targets available fuel names s).2 := by
  induction names generalizing s with
  | nil => exact holds
  | cons name rest ih =>
    rw [runNames]
    cases available name with
    | none => exact ih (logs _ _ holds)
    | some t => exact andThen_keeps (calls t s holds) fun _ => ih (calls t s holds)

end Keeps

/-- What is completed stays completed. -/
theorem onTarget_kept [DecidableEq T] {targets : T → Target T W} {s : State T W}
    (done : u ∈ s.calledTargets) : u ∈ (onTarget targets fuel origin t s).2.calledTargets := by
  refine onTarget_keeps (P := fun s => u ∈ s.calledTargets) (fun _ _ => id) (fun _ => True) ?_
    trivial done
  intro t depend call _ depends calls s _ done
  refine perform_keeps (fun _ _ => id) (fun _ _ _ _ _ => id) (fun d _ => depends d trivial)
    (Body.keeps_of_stable (fun _ _ => id) _) (fun u _ => calls u trivial) ?_ done
  intro s done
  exact List.mem_append_left _ done

/-- No path through the body raises. -/
def Body.Calm : Body T W → Prop
  | .done => True
  | .raise => False
  | .call _ next => next.Calm
  | .act _ next => ∀ w, (next w).Calm

structure Target.Calm (target : Target T W) : Prop where
  plain : ∀ run, .plain run ∈ target.depends → ∀ w, run w ≠ none
  body : target.body.Calm

section Calm
variable {s : State T W}

theorem runDepends_calm {call : T → State T W → Status × State T W} (t : T)
    (depends : List (Dependency T W)) (plain : ∀ run, .plain run ∈ depends → ∀ w, run w ≠ none)
    (calls : ∀ d, .target d ∈ depends → ∀ s, (call d s).1 = .ok) :
    (runDepends call t depends s).1 = .ok := by
  induction depends generalizing s with
  | nil => rfl
  | cons dependency rest ih =>
    have later := fun s => ih (s := s) (fun run member => plain run (List.mem_cons_of_mem _ member))
      (fun d member => calls d (List.mem_cons_of_mem _ member))
    cases dependency with
    | target d => exact andThen_returns (calls d List.mem_cons_self s) later
    | plain run =>
      rw [runDepends]
      cases ran : run s.world with
      | none => exact absurd ran (plain run List.mem_cons_self _)
      | some w => exact later _

theorem runBody_calm {call : T → State T W → Status × State T W} (t : T) (body : Body T W)
    (calm : body.Calm) (calls : ∀ u, body.Calls u → ∀ s, (call u s).1 = .ok) :
    (runBody call t body s).1 = .ok := by
  induction body generalizing s with
  | done => rfl
  | raise => cases calm
  | call u next ih =>
    exact andThen_returns (calls u .here s) fun s =>
      ih calm fun v called => calls v (.next called)
  | act change next ih => exact ih _ (calm _) fun v called => calls v (.act called)

/-- Where nothing raises, calls along falling ranks return. -/
theorem onTarget_calm [DecidableEq T] {targets : T → Target T W} (rank : T → Nat)
    (falls : ∀ t u, Edge targets t u → rank u < rank t) (calm : ∀ t, (targets t).Calm)
    (enough : rank t < fuel) : (onTarget targets fuel origin t s).1 = .ok := by
  induction fuel generalizing t s origin with
  | zero => exact absurd enough (Nat.not_lt_zero _)
  | succ fuel ih =>
    rw [onTarget]
    split
    · rfl
    · have along : ∀ origin u, Edge targets t u → ∀ s,
          (onTarget targets fuel origin u s).1 = .ok := by
        intro origin u edge s
        have lower := falls t u edge
        exact ih (by omega)
      refine andThen_returns (runDepends_calm t _ (calm t).plain ?_) fun s =>
        andThen_returns (runBody_calm t _ (calm t).body ?_) fun s => rfl
      · intro d declared
        exact along _ d (.inl declared)
      · intro u called
        exact along _ u (.inr called)

end Calm
end MinLinux.Build
