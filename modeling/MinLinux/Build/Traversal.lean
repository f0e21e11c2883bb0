import MinLinux.Acyclic
import MinLinux.Build.Rules

/-! The engine as a traversal of the call graph that remembers what it completed. One
invariant relates the trace of a build to `calledTargets` and to the stack of targets
that are under way; every call keeps it, whether it returns or raises. -/
namespace MinLinux.Build
open Relation Acyclic
variable {T W : Type}

/-- The targets under way after a trace, innermost first. -/
def underWay : List T → Event T → List T
  | stack, .enter t => t :: stack
  | stack, .finish _ => stack.tail
  | stack, _ => stack

def active (trace : List (Event T)) : List T := trace.foldl underWay []

def Event.finished : Event T → Option T
  | .finish t => some t
  | _ => none

/-- The targets reachable from the requested ones through declared dependencies and
the calls that bodies made. -/
inductive Reached (targets : T → Target T W) (requested : T → Prop) (trace : List (Event T)) :
    T → Prop where
  | request : requested t → Reached targets requested trace t
  | dependency : Reached targets requested trace t → .target u ∈ (targets t).depends →
      Reached targets requested trace u
  | call : Reached targets requested trace t → .call (.body t) u ∈ trace →
      Reached targets requested trace u

theorem Reached.mono {targets : T → Target T W} (reached : Reached targets requested trace t)
    (more : trace ⊆ trace') : Reached targets requested trace' t := by
  induction reached with
  | request asked => exact .request asked
  | dependency _ declared ih => exact .dependency ih declared
  | call _ made ih => exact .call ih (more made)

/-- The invariant of a build while the targets of `stack` are under way. -/
structure Inv [DecidableEq T] (targets : T → Target T W) (requested : T → Prop) (stack : List T)
    (s : State T W) : Prop where
  called : s.calledTargets = s.trace.filterMap Event.finished
  active : active s.trace = stack
  once : ∀ t, s.trace.count (.start t) ≤ 1
  started : ∀ t, .start t ∈ s.trace → t ∈ s.calledTargets ∨ t ∈ stack
  executed : ∀ t ∈ s.calledTargets, .start t ∈ s.trace
  unfinished : ∀ t ∈ stack, t ∉ s.calledTargets
  ready : ∀ before t after, s.trace = before ++ .start t :: after →
    ∀ d, .target d ∈ (targets t).depends → .finish d ∈ before
  answered : ∀ t u, .call (.body t) u ∈ s.trace → u ∈ s.calledTargets ∨ u ∈ stack
  reached : ∀ t, .start t ∈ s.trace ∨ t ∈ stack → Reached targets requested s.trace t
  calm : ∀ t, .raise t ∉ s.trace

theorem active_append (trace : List (Event T)) (e : Event T) :
    active (trace ++ [e]) = underWay (active trace) e := List.foldl_append

theorem trace_log (s : State T W) (e : Event T) : (s.log e).trace = s.trace ++ [e] := rfl

/-- A position of a logged trace is an old position or the logged event. -/
theorem split_log {trace before after : List (Event T)} (same : trace ++ [e] = before ++ x :: after) :
    (∃ after', after = after' ++ [e] ∧ trace = before ++ x :: after') ∨
    (after = [] ∧ x = e ∧ before = trace) := by
  rcases List.eq_nil_or_concat after with rfl | ⟨after', last, rfl⟩
  · obtain ⟨rfl, single⟩ := List.append_inj' same rfl
    exact .inr ⟨rfl, (List.singleton_inj.mp single).symm, rfl⟩
  · rw [List.concat_eq_append, ← List.cons_append, ← List.append_assoc] at same
    obtain ⟨rfl, single⟩ := List.append_inj' same rfl
    cases List.singleton_inj.mp single
    exact .inl ⟨after', List.concat_eq_append, rfl⟩

section Events
variable [DecidableEq T] {targets : T → Target T W} {requested : T → Prop} {stack : List T}
  {s : State T W}

/-- Events that neither move the stack nor complete, start or raise anything. -/
theorem Inv.log_neutral (inv : Inv targets requested stack s) (e : Event T)
    (still : ∀ stack, underWay stack e = stack) (silent : e.finished = none)
    (notStart : ∀ t, e ≠ .start t) (notRaise : ∀ t, e ≠ .raise t)
    (answers : ∀ t u, e = .call (.body t) u → u ∈ s.calledTargets ∨ u ∈ stack) :
    Inv targets requested stack (s.log e) where
  called := by
    rw [trace_log, List.filterMap_append, List.filterMap_cons_none silent, List.filterMap_nil,
      List.append_nil]
    exact inv.called
  active := by rw [trace_log, active_append, still, inv.active]
  once t := by
    rw [trace_log, List.count_append, List.count_singleton, if_neg (by simpa using notStart t)]
    exact inv.once t
  started t member := by
    rw [trace_log, List.mem_append, List.mem_singleton] at member
    exact inv.started t (member.resolve_right fun same => notStart t same.symm)
  executed t member := List.mem_append_left _ (inv.executed t member)
  unfinished := inv.unfinished
  ready before t after same d declared := by
    rcases split_log same with ⟨after', -, same⟩ | ⟨-, same, -⟩
    · exact inv.ready before t after' same d declared
    · exact absurd same.symm (notStart t)
  answered t u member := by
    rcases List.mem_append.mp member with earlier | now
    · exact inv.answered t u earlier
    · exact answers t u (List.mem_singleton.mp now).symm
  reached t either := by
    refine (inv.reached t (either.imp_left fun member => ?_)).mono (List.subset_append_left _ _)
    rw [trace_log, List.mem_append, List.mem_singleton] at member
    exact member.resolve_right fun same => notStart t same.symm
  calm t member := by
    rcases List.mem_append.mp member with earlier | now
    · exact inv.calm t earlier
    · exact notRaise t (List.mem_singleton.mp now).symm

theorem Inv.world (inv : Inv targets requested stack s) (w : W) :
    Inv targets requested stack { s with world := w } :=
  ⟨inv.called, inv.active, inv.once, inv.started, inv.executed, inv.unfinished, inv.ready,
    inv.answered, inv.reached, inv.calm⟩

/-- A call that finds its target not completed puts it under way. -/
theorem Inv.enter (inv : Inv targets requested stack s) (origin : Origin T) (fresh : u ∉ s.calledTargets)
    (reached : Reached targets requested (s.trace ++ [.call origin u]) u) :
    Inv targets requested (u :: stack) ((s.log (.call origin u)).log (.enter u)) where
  called := by
    simp only [trace_log, List.filterMap_append, List.filterMap_cons, List.filterMap_nil,
      Event.finished, List.append_nil]
    exact inv.called
  active := by
    simp only [trace_log, active_append, inv.active]
    rfl
  once t := by
    simp only [trace_log, List.count_append, List.count_singleton, beq_iff_eq, reduceCtorEq,
      if_false, Nat.add_zero]
    exact inv.once t
  started t member := by
    simp only [trace_log, List.mem_append, List.mem_singleton, reduceCtorEq, or_false] at member
    exact (inv.started t member).imp_right (List.mem_cons_of_mem u)
  executed t member := List.mem_append_left _ (List.mem_append_left _ (inv.executed t member))
  unfinished t member := by
    rcases List.mem_cons.mp member with rfl | earlier
    · exact fresh
    · exact inv.unfinished t earlier
  ready before t after same d declared := by
    rcases split_log same with ⟨after', -, same⟩ | ⟨-, same, -⟩
    · rcases split_log same with ⟨after'', -, same⟩ | ⟨-, same, -⟩
      · exact inv.ready before t after'' same d declared
      · cases same
    · cases same
  answered t v member := by
    simp only [trace_log, List.mem_append, List.mem_singleton, reduceCtorEq, or_false] at member
    rcases member with earlier | now
    · exact (inv.answered t v earlier).imp_right (List.mem_cons_of_mem u)
    · cases now
      exact .inr List.mem_cons_self
  reached t either := by
    have wider : s.trace ⊆ ((s.log (.call origin u)).log (.enter u)).trace :=
      fun e member => List.mem_append_left _ (List.mem_append_left _ member)
    rcases either with member | under
    · simp only [trace_log, List.mem_append, List.mem_singleton, reduceCtorEq, or_false] at member
      exact (inv.reached t (.inl member)).mono wider
    · rcases List.mem_cons.mp under with rfl | earlier
      · exact reached.mono (List.subset_append_left _ _)
      · exact (inv.reached t (.inr earlier)).mono wider
  calm t member := by
    simp only [trace_log, List.mem_append, List.mem_singleton, reduceCtorEq, or_false] at member
    exact inv.calm t member

/-- A body starts once all that its target depends on is completed. -/
theorem Inv.start (inv : Inv targets requested (t :: stack) s) (first : .start t ∉ s.trace)
    (depends : ∀ d, .target d ∈ (targets t).depends → d ∈ s.calledTargets) :
    Inv targets requested (t :: stack) (s.log (.start t)) where
  called := by
    simp only [trace_log, List.filterMap_append, List.filterMap_cons, List.filterMap_nil,
      Event.finished, List.append_nil]
    exact inv.called
  active := by
    simp only [trace_log, active_append, inv.active]
    rfl
  once v := by
    rw [trace_log, List.count_append, List.count_singleton]
    by_cases same : v = t
    · rw [same, List.count_eq_zero.mpr first]
      split <;> decide
    · rw [if_neg (by simpa using Ne.symm same)]
      exact inv.once v
  started v member := by
    rcases List.mem_append.mp member with earlier | now
    · exact inv.started v earlier
    · cases List.mem_singleton.mp now
      exact .inr List.mem_cons_self
  executed v member := List.mem_append_left _ (inv.executed v member)
  unfinished := inv.unfinished
  ready before v after same d declared := by
    rcases split_log same with ⟨after', -, same⟩ | ⟨-, now, rfl⟩
    · exact inv.ready before v after' same d declared
    · cases now
      have completed := depends d declared
      rw [inv.called, List.mem_filterMap] at completed
      obtain ⟨e, member, finished⟩ := completed
      cases e <;> cases finished
      exact member
  answered v u member := by
    simp only [trace_log, List.mem_append, List.mem_singleton, reduceCtorEq, or_false] at member
    exact inv.answered v u member
  reached v either := by
    have wider : s.trace ⊆ (s.log (.start t)).trace := List.subset_append_left _ _
    rcases either with member | under
    · rcases List.mem_append.mp member with earlier | now
      · exact (inv.reached v (.inl earlier)).mono wider
      · cases List.mem_singleton.mp now
        exact (inv.reached t (.inr List.mem_cons_self)).mono wider
    · exact (inv.reached v (.inr under)).mono wider
  calm v member := by
    simp only [trace_log, List.mem_append, List.mem_singleton, reduceCtorEq, or_false] at member
    exact inv.calm v member

/-- A body that returned is recorded, and its target is no longer under way. -/
theorem Inv.complete (inv : Inv targets requested (t :: stack) s) (started : .start t ∈ s.trace)
    (outer : t ∉ stack) : Inv targets requested stack (s.complete t) where
  called := by
    simp only [State.complete, List.filterMap_append, List.filterMap_cons, List.filterMap_nil,
      Event.finished, inv.called]
  active := by
    simp only [State.complete, active_append, inv.active]
    rfl
  once v := by
    simp only [State.complete, List.count_append, List.count_singleton, beq_iff_eq, reduceCtorEq,
      if_false, Nat.add_zero]
    exact inv.once v
  started v member := by
    simp only [State.complete, List.mem_append, List.mem_singleton, reduceCtorEq, or_false] at member
    rcases inv.started v member with done | under
    · exact .inl (List.mem_append_left _ done)
    · rcases List.mem_cons.mp under with rfl | outer
      · exact .inl (List.mem_append_right _ (List.mem_singleton.mpr rfl))
      · exact .inr outer
  executed v member := by
    rcases List.mem_append.mp member with earlier | now
    · exact List.mem_append_left _ (inv.executed v earlier)
    · cases List.mem_singleton.mp now
      exact List.mem_append_left _ started
  unfinished v member done := by
    rcases List.mem_append.mp done with earlier | now
    · exact inv.unfinished v (List.mem_cons_of_mem t member) earlier
    · cases List.mem_singleton.mp now
      exact outer member
  ready before v after same d declared := by
    rcases split_log same with ⟨after', -, same⟩ | ⟨-, same, -⟩
    · exact inv.ready before v after' same d declared
    · cases same
  answered v u member := by
    simp only [State.complete, List.mem_append, List.mem_singleton, reduceCtorEq, or_false] at member
    rcases inv.answered v u member with done | under
    · exact .inl (List.mem_append_left _ done)
    · rcases List.mem_cons.mp under with rfl | outer
      · exact .inl (List.mem_append_right _ (List.mem_singleton.mpr rfl))
      · exact .inr outer
  reached v either := by
    have wider : s.trace ⊆ (s.complete t).trace := List.subset_append_left _ _
    simp only [State.complete, List.mem_append, List.mem_singleton, reduceCtorEq, or_false] at either
    rcases either with member | under
    · exact (inv.reached v (.inl member)).mono wider
    · exact (inv.reached v (.inr (List.mem_cons_of_mem t under))).mono wider
  calm v member := by
    simp only [State.complete, List.mem_append, List.mem_singleton, reduceCtorEq, or_false] at member
    exact inv.calm v member

end Events

section Calls
variable [DecidableEq T] {targets : T → Target T W} {requested : T → Prop} {stack : List T}
  {s s' : State T W} {P : T → Prop}

/-- An exception has ended a build that kept the invariant up to it. -/
def Broken (targets : T → Target T W) (requested : T → Prop) (s : State T W) : Prop :=
  ∃ b t stack, Inv targets requested (t :: stack) b ∧ s = b.log (.raise t)

/-- What a part of a build does, from `s` on: only bodies in `P` start in it. -/
structure Segment (targets : T → Target T W) (requested : T → Prop) (P : T → Prop)
    (stack : List T) (s : State T W) (out : Status × State T W) : Prop where
  fuelled : out.1 ≠ .starved
  grows : ∃ new, out.2.trace = s.trace ++ new ∧ ∀ v, .start v ∈ new → P v
  kept : s.calledTargets ⊆ out.2.calledTargets
  returns : out.1 = .ok → Inv targets requested stack out.2
  breaks : out.1 = .raised → Broken targets requested out.2

theorem Segment.stay (inv : Inv targets requested stack s) :
    Segment targets requested P stack s (.ok, s) :=
  ⟨nofun, ⟨[], (List.append_nil _).symm, by simp⟩, fun _ => id, fun _ => inv, nofun⟩

theorem Segment.raise (inv : Inv targets requested (t :: stack) s) :
    Segment targets requested P (t :: stack) s (.raised, s.log (.raise t)) :=
  ⟨nofun, ⟨[.raise t], rfl, by simp⟩, fun _ => id, nofun, fun _ => ⟨s, t, stack, inv, rfl⟩⟩

theorem Segment.mono {Q : T → Prop} (segment : Segment targets requested P stack s out)
    (wider : ∀ v, P v → Q v) : Segment targets requested Q stack s out := by
  obtain ⟨new, same, all⟩ := segment.grows
  exact ⟨segment.fuelled, ⟨new, same, fun v member => wider v (all v member)⟩, segment.kept,
    segment.returns, segment.breaks⟩

theorem Segment.logged (segment : Segment targets requested P stack (s.log e) out)
    (allowed : ∀ v, e = .start v → P v) : Segment targets requested P stack s out := by
  obtain ⟨new, same, all⟩ := segment.grows
  refine ⟨segment.fuelled, ⟨e :: new, ?_, ?_⟩, segment.kept, segment.returns, segment.breaks⟩
  · rw [same, trace_log, List.append_assoc]
    rfl
  · intro v member
    rcases List.mem_cons.mp member with same | later
    · exact allowed v same.symm
    · exact all v later

/-- A part that may start `P` and, when it returned, one that continues from there. -/
theorem Segment.andThen {next : State T W → Status × State T W}
    (first : Segment targets requested P deeper s out)
    (second : out.1 = .ok → Segment targets requested P stack out.2 (next out.2)) :
    Segment targets requested P stack s (Build.andThen out next) := by
  obtain ⟨status, s'⟩ := out
  obtain ⟨new, same, all⟩ := first.grows
  cases status with
  | ok =>
    obtain ⟨fuelled, ⟨more, same', all'⟩, kept, returns, breaks⟩ := second rfl
    refine ⟨fuelled, ⟨new ++ more, ?_, ?_⟩, fun t member => kept (first.kept member), returns, breaks⟩
    · exact same'.trans (by rw [same, List.append_assoc])
    · intro v member
      rcases List.mem_append.mp member with earlier | later
      · exact all v earlier
      · exact all' v later
  | raised => exact ⟨nofun, ⟨new, same, all⟩, first.kept, nofun, first.breaks⟩
  | starved => exact absurd rfl first.fuelled

theorem runDepends_spec (call : T → State T W → Status × State T W) (t : T)
    (depends : List (Dependency T W))
    (serves : ∀ d, .target d ∈ depends → ∀ s, Inv targets requested (t :: stack) s →
      Segment targets requested P (t :: stack) s (call d s) ∧
        ((call d s).1 = .ok → d ∈ (call d s).2.calledTargets))
    (inv : Inv targets requested (t :: stack) s) :
    Segment targets requested P (t :: stack) s (runDepends call t depends s) ∧
      ((runDepends call t depends s).1 = .ok →
        ∀ d, .target d ∈ depends → d ∈ (runDepends call t depends s).2.calledTargets) := by
  induction depends generalizing s with
  | nil => exact ⟨.stay inv, by simp⟩
  | cons dependency rest ih =>
    have later := fun {s} (inv : Inv targets requested (t :: stack) s) =>
      ih (fun d member => serves d (List.mem_cons_of_mem _ member)) inv
    cases dependency with
    | target d =>
      obtain ⟨first, completes⟩ := serves d List.mem_cons_self s inv
      rcases ran : call d s with ⟨status, s'⟩
      rw [ran] at first completes
      rw [runDepends, ran]
      refine ⟨first.andThen fun ok => (later (first.returns ok)).1, ?_⟩
      cases status with
      | ok =>
        obtain ⟨second, others⟩ := later (first.returns rfl)
        intro ok u member
        rcases List.mem_cons.mp member with same | member
        · cases same
          exact second.kept (completes rfl)
        · exact others ok u member
      | raised => rintro ⟨⟩
      | starved => rintro ⟨⟩
    | plain run =>
      rw [runDepends]
      cases ran : run s.world with
      | none =>
        constructor
        · exact .raise inv
        · rintro ⟨⟩
      | some world =>
        obtain ⟨second, others⟩ := later (inv.world world)
        refine ⟨⟨second.fuelled, second.grows, second.kept, second.returns, second.breaks⟩, ?_⟩
        intro ok u member
        refine others ok u (List.mem_of_ne_of_mem ?_ member)
        rintro ⟨⟩

theorem runBody_spec (call : T → State T W → Status × State T W) (t : T) (body : Body T W)
    (serves : ∀ u, body.Calls u → ∀ s, Inv targets requested (t :: stack) s →
      Segment targets requested P (t :: stack) s (call u s))
    (inv : Inv targets requested (t :: stack) s) :
    Segment targets requested P (t :: stack) s (runBody call t body s) := by
  induction body generalizing s with
  | done => exact .stay inv
  | raise => exact .raise inv
  | call u next ih =>
    have first := serves u .here s inv
    refine first.andThen fun ok => ?_
    exact ih (fun v member => serves v (.next member)) (first.returns ok)
  | act change next ih =>
    have later := ih (change s.world) (fun v member => serves v (.act member))
      (inv.world (change s.world))
    exact ⟨later.fuelled, later.grows, later.kept, later.returns, later.breaks⟩

/-- What a call of `t` serves: a target that may start bodies in `P` only. -/
def Serves (targets : T → Target T W) (requested : T → Prop) (P : T → Prop) (stack : List T)
    (call : State T W → Status × State T W) (u : T) : Prop :=
  ∀ s, Inv targets requested stack s → Segment targets requested P stack s (call s) ∧
    ((call s).1 = .ok → u ∈ (call s).2.calledTargets)

/-- A target under way, whose dependencies and calls never start it again. -/
theorem perform_spec (depend call : T → State T W → Status × State T W)
    (depends : ∀ d, .target d ∈ (targets t).depends →
      Serves targets requested P (t :: stack) (depend d) d)
    (calls : ∀ u, (targets t).body.Calls u → Serves targets requested P (t :: stack) (call u) u)
    (never : ¬ P t) (inv : Inv targets requested (t :: stack) s) (outside : t ∉ stack)
    (fresh : .start t ∉ s.trace) :
    Segment targets requested (fun v => v = t ∨ P v) stack s
      (perform depend call (targets t) t s) := by
  obtain ⟨first, completed⟩ := runDepends_spec depend t (targets t).depends depends inv
  rw [perform]
  refine (first.mono fun v => Or.inr).andThen fun ok => ?_
  have started : Inv targets requested (t :: stack)
      ((runDepends depend t (targets t).depends s).2.log (.start t)) := by
    refine (first.returns ok).start ?_ (completed ok)
    obtain ⟨new, same, all⟩ := first.grows
    intro member
    rw [same, List.mem_append] at member
    exact member.elim fresh fun later => never (all t later)
  have second := runBody_spec call t (targets t).body
    (fun u called s inv => (calls u called s inv).1) started
  refine ((second.mono fun v => Or.inr).logged ?_).andThen fun ok => ?_
  · intro v same
    exact .inl (Event.start.inj same).symm
  · obtain ⟨new, same, -⟩ := second.grows
    constructor
    · rintro ⟨⟩
    · exact ⟨[.finish t], rfl, by simp⟩
    · exact List.subset_append_left _ _
    · intro _
      apply (second.returns ok).complete _ outside
      rw [same]
      exact List.mem_append_left _ (List.mem_append_right _ (List.mem_singleton.mpr rfl))
    · rintro ⟨⟩

/-- Calls along the edges of a graph of falling rank keep the invariant. -/
theorem onTarget_spec (rank : T → Nat) (falls : ∀ t u, Edge targets t u → rank u < rank t)
    (acyclic : IsAcyclic (Edge targets)) (origin : Origin T) (enough : rank u < fuel)
    (inv : Inv targets requested stack s) (above : ∀ a ∈ stack, TransGen (Edge targets) a u)
    (reached : Reached targets requested (s.trace ++ [.call origin u]) u) :
    Segment targets requested (ReflTransGen (Edge targets) u) stack s
      (onTarget targets fuel origin u s) := by
  induction fuel generalizing u s stack origin with
  | zero => exact absurd enough (Nat.not_lt_zero _)
  | succ fuel ih =>
    rw [onTarget]
    split
    · rename_i done
      have logged : Inv targets requested stack (s.log (.call origin u)) := by
        apply inv.log_neutral _ (fun _ => rfl) rfl
        · rintro _ ⟨⟩
        · rintro _ ⟨⟩
        · intro t v same
          cases same
          exact .inl done
      apply (Segment.stay logged).logged
      rintro _ ⟨⟩
    · rename_i fresh
      have outside : u ∉ stack := fun member => acyclic u (above u member)
      have entered := inv.enter origin fresh reached
      -- Every call made while `u` is under way goes along an edge from `u`.
      have serves : ∀ origin v, Edge targets u v →
          (∀ s, Inv targets requested (u :: stack) s →
            Reached targets requested (s.trace ++ [.call origin v]) v) →
          Serves targets requested (TransGen (Edge targets) u) (u :: stack)
            (onTarget targets fuel origin v) v := by
        intro origin v edge reaches s inv
        have lower := falls u v edge
        have deeper : ∀ a ∈ u :: stack, TransGen (Edge targets) a v := by
          intro a member
          rcases List.mem_cons.mp member with rfl | outer
          · exact .single edge
          · exact (above a outer).tail edge
        have segment := ih origin (by omega) inv deeper (reaches s inv)
        exact ⟨segment.mono fun x reached => TransGen.head' edge reached, onTarget_completes⟩
      have performed := perform_spec (onTarget targets fuel (.dependency u))
        (onTarget targets fuel (.body u))
        (fun d declared => serves _ d (.inl declared) fun s inv =>
          .dependency ((inv.reached u (.inr List.mem_cons_self)).mono
            (List.subset_append_left _ _)) declared)
        (fun v called => serves _ v (.inr called) fun s inv =>
          .call ((inv.reached u (.inr List.mem_cons_self)).mono (List.subset_append_left _ _))
            (List.mem_append_right _ (List.mem_singleton.mpr rfl)))
        (acyclic u) entered outside (by
          simp only [trace_log, List.mem_append, List.mem_singleton, reduceCtorEq, or_false]
          exact fun earlier => (inv.started u earlier).elim fresh outside)
      refine ((performed.mono ?_).logged ?_).logged ?_
      · rintro v (rfl | below)
        · exact .refl
        · exact below.to_reflTransGen
      · rintro _ ⟨⟩
      · rintro _ ⟨⟩

end Calls

/-- The targets a command line asks for: those its names stand for, or `help`. -/
def Requested (available : String → Option T) (help : T) (argv : List String) (t : T) : Prop :=
  (∃ name ∈ argv, available name = some t) ∨ (argv = [] ∧ t = help)

section Main
variable [DecidableEq T] {targets : T → Target T W} {requested : T → Prop} {stack : List T}
  {s : State T W}

theorem Inv.initial (world : W) : Inv targets requested [] ⟨world, [], []⟩ where
  called := rfl
  active := rfl
  once _ := Nat.zero_le _
  started _ := nofun
  executed _ := nofun
  unfinished _ := nofun
  ready before t after same := by simp at same
  answered _ _ := nofun
  reached t := nofun
  calm _ := nofun

theorem Inv.print (inv : Inv targets requested stack s) (text : String) :
    Inv targets requested stack (s.log (.print text)) :=
  inv.log_neutral _ (fun _ => rfl) rfl nofun nofun nofun

theorem Inv.mem_called (inv : Inv targets requested stack s) :
    t ∈ s.calledTargets ↔ .finish t ∈ s.trace := by
  rw [inv.called, List.mem_filterMap]
  constructor
  · rintro ⟨e, member, finished⟩
    cases e <;> cases finished
    exact member
  · intro member
    exact ⟨_, member, rfl⟩

variable (rank : T → Nat) (falls : ∀ t u, Edge targets t u → rank u < rank t)
  (acyclic : IsAcyclic (Edge targets)) (enough : ∀ t, rank t < fuel)
include falls acyclic enough

theorem request_spec (asked : requested t) (inv : Inv targets requested [] s) :
    Segment targets requested (fun _ => True) [] s (onTarget targets fuel .commandLine t s) := by
  have segment := onTarget_spec rank falls acyclic .commandLine (enough t) inv nofun
    (.request asked)
  exact segment.mono fun _ _ => trivial

theorem runNames_spec (available : String → Option T) (names : List String)
    (asked : ∀ name ∈ names, ∀ t, available name = some t → requested t)
    (inv : Inv targets requested [] s) :
    Segment targets requested (fun _ => True) [] s (runNames targets available fuel names s) ∧
      ((runNames targets available fuel names s).1 = .ok →
        ∀ name ∈ names, ∀ t, available name = some t →
          t ∈ (runNames targets available fuel names s).2.calledTargets) := by
  induction names generalizing s with
  | nil => exact ⟨.stay inv, by simp⟩
  | cons name rest ih =>
    have later := fun {s} (inv : Inv targets requested [] s) =>
      ih (fun name member => asked name (List.mem_cons_of_mem _ member)) inv
    rw [runNames]
    cases known : available name with
    | none =>
      obtain ⟨second, others⟩ := later (inv.print ("Target '" ++ name ++ "' not found"))
      refine ⟨second.logged (by simp), ?_⟩
      intro ok other member t listed
      rcases List.mem_cons.mp member with rfl | member
      · cases known.symm.trans listed
      · exact others ok other member t listed
    | some target =>
      have first := request_spec rank falls acyclic enough
        (asked name List.mem_cons_self target known) inv
      dsimp only
      refine ⟨first.andThen fun ok => (later (first.returns ok)).1, ?_⟩
      intro ok other member t listed
      obtain ⟨returned, same⟩ := andThen_ok ok
      obtain ⟨second, others⟩ := later (first.returns returned)
      rw [same] at ok ⊢
      rcases List.mem_cons.mp member with rfl | member
      · cases known.symm.trans listed
        exact second.kept (onTarget_completes returned)
      · exact others ok other member t listed

theorem main_spec (available : String → Option T) (help : T) (argv0 : String) (argv : List String)
    (world : W) :
    Segment targets (Requested available help argv) (fun _ => True) [] ⟨world, [], []⟩
        (main targets available help fuel argv0 argv ⟨world, [], []⟩) ∧
      ((main targets available help fuel argv0 argv ⟨world, [], []⟩).1 = .ok →
        ∀ t, Requested available help argv t →
          t ∈ (main targets available help fuel argv0 argv ⟨world, [], []⟩).2.calledTargets) := by
  have asked : ∀ name ∈ argv, ∀ t, available name = some t → Requested available help argv t :=
    fun name member t known => .inl ⟨name, member, known⟩
  obtain ⟨names, named⟩ := runNames_spec rank falls acyclic enough available argv asked
    (Inv.initial world)
  rw [main]
  cases argv with
  | nil =>
    have asked : Requested available help [] help := .inr ⟨rfl, rfl⟩
    have listing := request_spec rank falls acyclic enough asked
      ((Inv.initial world).print ("Usage: " ++ argv0 ++ " <target>..."))
    refine ⟨listing.logged nofun, ?_⟩
    rintro ok t (⟨name, member, -⟩ | ⟨-, rfl⟩)
    · cases member
    · exact onTarget_completes ok
  | cons name rest =>
    refine ⟨names.andThen fun ok => .stay (names.returns ok), ?_⟩
    intro ok t asked
    obtain ⟨returned, same⟩ := andThen_ok ok
    rw [same]
    rcases asked with ⟨name, member, known⟩ | ⟨impossible, -⟩
    · exact named returned name member t known
    · cases impossible

end Main

section Outcome
variable [DecidableEq T] {targets : T → Target T W} {requested : T → Prop} {s : State T W}

/-- In a build that is over, the bodies executed are those of the reached targets. -/
theorem Inv.executed_iff (inv : Inv targets requested [] s)
    (requests : ∀ t, requested t → t ∈ s.calledTargets) (t : T) :
    .start t ∈ s.trace ↔ Reached targets requested s.trace t := by
  constructor
  · intro started
    exact inv.reached t (.inl started)
  · intro reached
    induction reached with
    | request asked => exact inv.executed _ (requests _ asked)
    | dependency _ declared ih =>
      obtain ⟨before, after, split⟩ := List.append_of_mem ih
      have finished := inv.ready before _ after split _ declared
      have member : .finish _ ∈ s.trace := split ▸ List.mem_append_left _ finished
      exact inv.executed _ (inv.mem_called.mpr member)
    | call _ made _ =>
      rcases inv.answered _ _ made with done | impossible
      · exact inv.executed _ done
      · cases impossible

/-- A build ended by an exception: the last event raised it, on behalf of the innermost
target under way. -/
theorem Broken.last (broken : Broken targets requested s)
    (split : s.trace = before ++ .raise t :: after) :
    after = [] ∧ t ∈ active before ∧ ∀ u ∈ active before, u ∉ s.calledTargets := by
  obtain ⟨b, v, stack, inv, rfl⟩ := broken
  rcases split_log split with ⟨after', -, earlier⟩ | ⟨ended, now, rfl⟩
  · exact absurd (earlier ▸ List.mem_append_right _ List.mem_cons_self) (inv.calm t)
  · cases now
    rw [inv.active]
    exact ⟨ended, List.mem_cons_self, inv.unfinished⟩

end Outcome

/-- Two targets, the second of which depends on the first and calls it again. -/
def pair : Bool → Target Bool Unit
  | true => ⟨[.target false], .call false .done⟩
  | false => ⟨[], .done⟩

def pairName (name : String) : Option Bool := if name = "all" then some true else none

theorem pair_edge (edge : Edge pair t u) : t = true ∧ u = false := by
  cases t with
  | false =>
    rcases edge with declared | called
    · cases declared
    · cases called
  | true =>
    rcases edge with declared | called
    · cases List.mem_singleton.mp declared
      exact ⟨rfl, rfl⟩
    · cases called with
      | here => exact ⟨rfl, rfl⟩
      | next impossible => cases impossible

theorem pair_acyclic : IsAcyclic (Edge pair) := by
  intro v cycle
  obtain ⟨u, first, -⟩ := TransGen.head'_iff.mp cycle
  obtain ⟨w, -, last⟩ := TransGen.tail'_iff.mp cycle
  cases (pair_edge first).1.symm.trans (pair_edge last).2

end MinLinux.Build
