import MinLinux.Init.Guarantees

/-! The conversation at the console goes in turns. The kernel completes operations in any
order it likes and the reads of signals in between, yet the requests of
`create_console_prompt` are completed in the order they were made: a prompt, a line, a
prompt, a line. Commands and their children leave the rings alone here too. -/
namespace MinLinux.Init.EventLoop
open Uring

/-- All requests but the reads of signals. -/
def talk (g : Globals) (sqes : List IoUringSqe) : List IoUringSqe :=
  sqes.filter fun sqe => !isSignalRead g sqe

/-- The requests that are not completed, in the order they were made. -/
def State.under (s : State) : List IoUringSqe := s.inflight.map EventLoop.Op.sqe ++ s.queued

structure Alternating (g : Globals) (s : State) : Prop where
  order : talk g (s.completed ++ s.under) = talk g s.calls.flatten
  round : talk g s.under <:+ promptCall g

section Kinds
variable {g : Globals} {bits : Nat} {s s' : State} {t : Tokens}

theorem talk_append (g : Globals) (l l' : List IoUringSqe) :
    talk g (l ++ l') = talk g l ++ talk g l' := List.filter_append _ _

theorem talk_templates (g : Globals) (ks : List Kind) :
    talk g (ks.map fun k => k.template g) =
      (ks.filter (· != .signal)).map fun k => k.template g := by
  rw [talk, List.filter_map]
  congr 1
  apply List.filter_congr
  intro k _
  rw [Function.comp_apply, isSignalRead_template]
  rfl

theorem template_injective (g : Globals) : Function.Injective fun k : Kind => k.template g := by
  intro k k' same
  have console := congrArg (isConsoleRead g) same
  have signal := congrArg (isSignalRead g) same
  simp only [isConsoleRead_template, isSignalRead_template] at console signal
  cases k <;> cases k' <;> first | rfl | contradiction

/-- What can be under way of one round. -/
theorem round_cases {ks : List Kind}
    (round : talk g (ks.map fun k => k.template g) <:+ promptCall g) :
    ks.filter (· != .signal) = [] ∨ ks.filter (· != .signal) = [.console] ∨
      ks.filter (· != .signal) = [.prompt, .console] := by
  have both : promptCall g = [Kind.prompt, .console].map fun k => k.template g := rfl
  rw [talk_templates, both] at round
  have injective := List.map_injective_iff.mpr (template_injective g)
  rcases List.suffix_cons_iff.mp round with all | round
  · exact .inr (.inr (injective all))
  · rcases List.suffix_cons_iff.mp round with one | none
    · have same : _ = [Kind.console].map fun k => k.template g := one
      exact .inr (.inl (injective same))
    · exact .inl (List.map_eq_nil_iff.mp (List.suffix_nil.mp none))

theorem Represents.under_eq (represents : Represents g bits s t) :
    s.under = (t.inflight ++ t.queued).map fun k => k.template g := by
  rw [State.under, represents.inflight, represents.queued_eq, List.map_append]

theorem talk_promptCall (g : Globals) : talk g (promptCall g) = promptCall g :=
  talk_templates g [.prompt, .console]

theorem talk_signalCall (g : Globals) : talk g (signalCall g) = [] := talk_templates g [.signal]

/-- The calls made so far amount to whole rounds of the conversation. -/
theorem talk_calls {calls : List (List IoUringSqe)}
    (blocks : ∀ call ∈ calls, call = promptCall g ∨ call = signalCall g) :
    talk g calls.flatten = (List.replicate (calls.count (promptCall g)) (promptCall g)).flatten := by
  have different : signalCall g ≠ promptCall g := by
    intro same
    have lengths : 1 = 2 := congrArg List.length same
    contradiction
  induction calls with
  | nil => rfl
  | cons call rest ih =>
    have later := ih fun c member => blocks c (List.mem_cons_of_mem call member)
    rw [List.flatten_cons, talk_append, later]
    rcases blocks call List.mem_cons_self with rfl | rfl
    · rw [List.count_cons_self, List.replicate_succ, List.flatten_cons, talk_promptCall]
    · rw [List.count_cons_of_ne different, talk_signalCall, List.nil_append]

end Kinds

section Steps
variable {g : Globals} {bits : Nat} {s s' : State} {t : Tokens}

/-- Nothing of the conversation is under way when a round begins. -/
theorem Represents.under_quiet (represents : Represents g bits s t)
    (quiet : ∀ k ∈ t.inflight ++ t.queued, k = .signal) : talk g s.under = [] := by
  rw [represents.under_eq, talk_templates, List.map_eq_nil_iff, List.filter_eq_nil_iff]
  intro k member
  rw [quiet k member]
  decide

/-- A console read that is handled leaves only the signal read under way. -/
theorem console_quiet (balanced : Tokens.Balanced t.pipeline)
    (head : t.done.head? = some .console) : ∀ k ∈ t.inflight ++ t.queued, k = .signal := by
  obtain ⟨rest, done⟩ := List.head?_eq_some_iff.mp head
  rw [Tokens.pipeline, done, List.append_assoc, List.cons_append] at balanced
  have alone := balanced.after_console
  intro k member
  have listed : k ∈ rest ++ (t.inflight ++ t.queued) := List.mem_append_right rest member
  rw [alone] at listed
  exact List.mem_singleton.mp listed

theorem Alternating.same (alternating : Alternating g s) (completed : s'.completed = s.completed)
    (under : s'.under = s.under) (calls : s'.calls = s.calls) : Alternating g s' := by
  constructor
  · rw [completed, under, calls]
    exact alternating.order
  · rw [under]
    exact alternating.round

/-- Calls put their blocks behind everything that is under way. -/
theorem Alternating.called (alternating : Alternating g s) (completed : s'.completed = s.completed)
    (under : s'.under = s.under ++ blocks.flatten) (calls : s'.calls = s.calls ++ blocks)
    (round : talk g (s.under ++ blocks.flatten) <:+ promptCall g) : Alternating g s' := by
  constructor
  · rw [completed, under, calls, List.flatten_append, ← List.append_assoc, talk_append,
      talk_append g s.calls.flatten, alternating.order]
  · rw [under]
    exact round

theorem Alternating.signaled (alternating : Alternating g s)
    (completed : s'.completed = s.completed)
    (under : s'.under = s.under ++ [signalCall g].flatten)
    (calls : s'.calls = s.calls ++ [signalCall g]) : Alternating g s' := by
  apply alternating.called completed under calls
  rw [List.flatten_singleton, talk_append, talk_signalCall, List.append_nil]
  exact alternating.round

/-- A round begins when nothing of the one before is left. -/
theorem Alternating.prompted (alternating : Alternating g s)
    (completed : s'.completed = s.completed)
    (under : s'.under = s.under ++ (promptCall g :: blocks).flatten)
    (calls : s'.calls = s.calls ++ promptCall g :: blocks) (quiet : talk g s.under = [])
    (silent : talk g blocks.flatten = []) : Alternating g s' := by
  apply alternating.called completed under calls
  rw [List.flatten_cons, talk_append, talk_append, talk_promptCall, quiet, silent,
    List.append_nil]
  exact List.suffix_rfl

/-- What a call enters stands behind everything that is under way. -/
theorem Represents.under_stocked (represents : Represents g bits s t)
    {after : Submission.State IoUringSqe} (stocked : Stocked g after (t.queued ++ ks)) :
    s.inflight.map Op.sqe ++ (after.accepted.drop after.consumed.length).reduceOption =
      s.under ++ ks.map fun k => k.template g := by
  have queued : (after.accepted.drop after.consumed.length).reduceOption =
      s.queued ++ ks.map fun k => k.template g := by
    rw [represents.queued_eq, ← List.map_append, stocked.queued, List.reduceOption,
      List.filterMap_map]
    simp
  rw [State.under, queued, List.append_assoc]

theorem init_alternates (tracks : Tracks g bits s t) (alternating : Alternating g s)
    (stepped : step g s (.init signalfdOk socketOk) = some s') : Alternating g s' := by
  obtain ⟨pc, rfl⟩ := step_init stepped
  obtain ⟨represents, inv⟩ := tracks
  have circulates := inv.circulates
  simp only [Tokens.Circulates, represents.phase_eq pc rfl, Tokens.pipeline,
    List.append_eq_nil_iff] at circulates
  obtain ⟨⟨-, noneInflight⟩, noneQueued⟩ := circulates
  have quiet : talk g s.under = [] := by
    apply represents.under_quiet
    rw [noneInflight, noneQueued]
    intro k member
    cases member
  cases signalfdOk with
  | false => exact alternating.same rfl rfl rfl
  | true =>
    obtain ⟨sub₁, first, stocked₁, entries₁, accepted₁⟩ :=
      represents.sub.createConsolePrompt inv.queued
    obtain ⟨sub₂, second, stocked₂, entries₂, accepted₂⟩ :=
      stocked₁.submitSigListen (by rw [noneQueued]; exact Nat.le_succ 2)
    simp only [init, if_true, first, second, entries₁, entries₂]
    rw [List.append_assoc] at stocked₂
    have begun : Alternating g
        { s with pc := .wait, sub := sub₂, calls := s.calls ++ [promptCall g, signalCall g] } := by
      apply @Alternating.prompted g s _ [signalCall g] alternating
      · rfl
      · exact represents.under_stocked stocked₂
      · rfl
      · exact quiet
      · exact talk_signalCall g
    cases socketOk with
    | true => exact begun
    | false => exact begun.same rfl rfl rfl

theorem prompt_alternates (tracks : Tracks g bits s t) (alternating : Alternating g s)
    (stepped : step g s .prompt = some s') : Alternating g s' := by
  obtain ⟨cqe, pc, rfl⟩ := step_prompt stepped
  obtain ⟨represents, inv⟩ := tracks
  have circulates := inv.circulates
  simp only [Tokens.Circulates, represents.phase_eq pc rfl] at circulates
  obtain ⟨sub, created, stocked, entries, -⟩ := represents.sub.createConsolePrompt inv.queued
  have under : (s.submitted .advance (some sub)).under = s.under ++ [promptCall g].flatten :=
    represents.under_stocked stocked
  have quiet := represents.under_quiet (console_quiet circulates.1 circulates.2)
  rw [created]
  exact alternating.prompted rfl under (congrArg (s.calls ++ [·]) entries) quiet rfl

theorem processInput_alternates (alternating : Alternating g s) :
    Alternating g (processInput s cqe res) := by
  simp only [processInput]
  split
  · split
    · exact alternating.same rfl rfl rfl
    · split <;> exact alternating.same rfl rfl rfl
  · exact alternating.same rfl rfl rfl

theorem handle_alternates (tracks : Tracks g bits s t) (alternating : Alternating g s)
    (stepped : step g s .handle = some s') : Alternating g s' := by
  obtain ⟨cqe, pc, rfl⟩ := step_handle stepped
  obtain ⟨represents, inv⟩ := tracks
  simp only [handle]
  split
  · exact processInput_alternates alternating
  · split
    · obtain ⟨sub, listening, stocked, entries, -⟩ := represents.sub.submitSigListen inv.queued
      have under : (s.submitted .advance (some sub)).under =
          s.under ++ [signalCall g].flatten :=
        represents.under_stocked stocked
      rw [listening]
      exact alternating.signaled rfl under (congrArg (s.calls ++ [·]) entries)
    · split
      · split <;> exact alternating.same rfl rfl rfl
      · exact alternating.same rfl rfl rfl

theorem consume_alternates (tracks : Tracks g bits s t) (alternating : Alternating g s)
    (stepped : step g s .consume = some s') : Alternating g s' := by
  obtain ⟨⟨-, -, behind⟩, rfl⟩ := step_consume stepped
  obtain ⟨represents, -⟩ := tracks
  obtain ⟨k, rest, queued, entry, stocked⟩ := represents.sub.consume behind
  have after : (consume s).queued = rest.map fun k => k.template g := by
    rw [State.queued, consume, stocked.queued, List.reduceOption, List.filterMap_map]
    simp
  have under : (consume s).under = s.under := by
    rw [State.under, State.under, after, represents.queued_eq, queued, consume, List.map_append,
      List.append_assoc, List.map_singleton, entry]
    rfl
  exact alternating.same rfl under rfl

/-- An operation of the conversation that the link does not hold back is the first of those
under way. -/
theorem first_spoken (follows : Tokens.Linked (a ++ k :: b)) (free : a.getLast? ≠ some .prompt)
    (spoken : k ≠ .signal)
    (round : talk g ((a ++ k :: b).map fun k => k.template g) <:+ promptCall g) :
    a.filter (· != .signal) = [] := by
  have keeps : (k :: b).filter (· != .signal) = k :: b.filter (· != .signal) :=
    List.filter_cons_of_pos (bne_iff_ne.mpr spoken)
  have known := round_cases round
  rw [List.filter_append, keeps] at known
  cases before : a.filter (· != .signal) with
  | nil => rfl
  | cons first others =>
    rw [before] at known
    rcases known with none | one | two
    · cases none
    · cases others <;> cases one
    · obtain ⟨rfl, later⟩ := List.cons.inj two
      have alone : others = [] := by
        cases others with
        | nil => rfl
        | cons second more => cases more <;> cases later
      rw [alone] at before
      have prompted : Kind.prompt ∈ a.filter (· != .signal) := by
        rw [before]
        exact List.mem_singleton_self _
      have console : Kind.console ∉ a := by
        intro member
        have kept : Kind.console ∈ a.filter (· != .signal) := List.mem_filter.mpr ⟨member, rfl⟩
        rw [before] at kept
        cases List.mem_singleton.mp kept
      exact absurd (follows.last_prompt (List.mem_of_mem_filter prompted) console) free

/-- Whatever completes next, the conversation goes on as it was submitted. -/
theorem talk_completed (follows : Tokens.Linked (a ++ k :: b)) (free : a.getLast? ≠ some .prompt)
    (round : talk g ((a ++ k :: b).map fun k => k.template g) <:+ promptCall g) :
    talk g ((k :: (a ++ b)).map fun k => k.template g) =
      talk g ((a ++ k :: b).map fun k => k.template g) := by
  rw [talk_templates, talk_templates]
  congr 1
  by_cases signal : k = .signal
  · subst signal
    rw [List.filter_cons_of_neg (by decide), List.filter_append, List.filter_append,
      List.filter_cons_of_neg (by decide)]
  · have leads := first_spoken follows free signal round
    have keeps (l : List Kind) : (k :: l).filter (· != .signal) = k :: l.filter (· != .signal) :=
      List.filter_cons_of_pos (bne_iff_ne.mpr signal)
    rw [keeps, List.filter_append, List.filter_append, keeps, leads, List.nil_append,
      List.nil_append]

theorem complete_inflight (s : State) (i : Nat) (op : Op) :
    (complete g s i op res flags data).inflight.map Op.sqe = (s.inflight.map Op.sqe).eraseIdx i := by
  have erased : (s.inflight.eraseIdx i).map Op.sqe = (s.inflight.map Op.sqe).eraseIdx i := by
    rw [List.eraseIdx_eq_take_drop_succ, List.eraseIdx_eq_take_drop_succ, List.map_append,
      List.map_take, List.map_drop]
  simp only [complete]
  split
  · rw [map_modify_sqe, erased]
  · exact erased

theorem complete_alternates (tracks : Tracks g bits s t) (alternating : Alternating g s)
    (stepped : step g s (.complete i res flags data) = some s') : Alternating g s' := by
  obtain ⟨op, entry, allowed, rfl⟩ := step_complete stepped
  obtain ⟨represents, inv⟩ := tracks
  rw [Bool.and_eq_true, Bool.not_eq_true'] at allowed
  have unblocked : ¬ (t.inflight.take i).getLast? = some .prompt := by
    rw [← blocked_iff represents.inflight, allowed.1]
    exact Bool.false_ne_true
  have kinds := congrArg (fun l : List IoUringSqe => l[i]?) represents.inflight
  simp only [List.getElem?_map, entry, Option.map_some] at kinds
  obtain ⟨k, kind, same⟩ := Option.map_eq_some_iff.mp kinds.symm
  obtain ⟨within, found⟩ := List.getElem?_eq_some_iff.mp kind
  have parts : t.inflight ++ t.queued =
      t.inflight.take i ++ k :: (t.inflight.drop (i + 1) ++ t.queued) := by
    rw [← List.cons_append, ← found, ← List.drop_eq_getElem_cons within, ← List.append_assoc,
      List.take_append_drop]
  have after : (complete g s i op res flags data).under =
      (t.inflight.take i ++ (t.inflight.drop (i + 1) ++ t.queued)).map fun k => k.template g := by
    have queued : (complete g s i op res flags data).queued = s.queued := rfl
    rw [State.under, complete_inflight, represents.inflight, queued, represents.queued_eq,
      List.eraseIdx_eq_take_drop_succ, ← List.map_take, ← List.map_drop, ← List.map_append,
      ← List.map_append, List.append_assoc]
  have before := represents.under_eq
  have follows := inv.linked
  rw [parts] at before follows
  have order := alternating.order
  have round := alternating.round
  rw [before] at order round
  have turn := talk_completed follows unblocked round
  constructor
  · change talk g ((s.completed ++ [op.sqe]) ++ _) = talk g s.calls.flatten
    rw [after, ← same, List.append_assoc, talk_append, List.singleton_append]
    rw [talk_append, ← turn] at order
    exact order
  · rw [after]
    refine List.IsSuffix.trans ?_ (turn ▸ round)
    exact (List.suffix_cons _ _).filter _

theorem step_alternates (tracks : Tracks g bits s t) (alternating : Alternating g s)
    (stepped : step g s a = some s') : Alternating g s' := by
  cases a with
  | init signalfdOk socketOk => exact init_alternates tracks alternating stepped
  | prompt => exact prompt_alternates tracks alternating stepped
  | handle => exact handle_alternates tracks alternating stepped
  | consume => exact consume_alternates tracks alternating stepped
  | complete i res flags data => exact complete_alternates tracks alternating stepped
  | enter =>
    obtain ⟨-, rfl⟩ := step_enter stepped
    exact alternating.same rfl rfl rfl
  | enterReturn res =>
    obtain ⟨-, rfl⟩ := step_enterReturn stepped
    split <;> exact alternating.same rfl rfl rfl
  | result =>
    obtain ⟨-, ⟨-, rfl⟩ | ⟨cqe, -, rfl⟩⟩ := step_result stepped <;>
      exact alternating.same rfl rfl rfl
  | command buffer returns =>
    obtain ⟨cqe, -, -, rfl⟩ := step_command stepped
    exact alternating.same rfl rfl rfl
  | advance =>
    obtain ⟨-, rfl⟩ := step_advance stepped
    exact alternating.same rfl rfl rfl

end Steps

theorem run_alternates (small : bits ≤ 31) (large : 3 ≤ 2 ^ bits) (sqArray : UInt32 → UInt32)
    (cqes : UInt32 → IoUringCqe)
    (ran : Transition.run (step g) (start bits sqArray cqes) acts = some s) :
    ∃ t, Tracks g bits s t ∧ Alternating g s := by
  refine Transition.run_invariant (P := fun s => ∃ t, Tracks g bits s t ∧ Alternating g s) ?_ ?_ ran
  · rintro s a s' ⟨t, tracks, alternating⟩ stepped
    obtain ⟨-, t', -, tracks'⟩ := step_tracks large tracks stepped
    exact ⟨t', tracks', step_alternates tracks alternating stepped⟩
  · exact ⟨Tokens.start, start_tracks small sqArray cqes, rfl, List.nil_suffix⟩

/-- No round is under way while a line is run, nor until its prompt is made. -/
theorem Tracks.quiet (tracks : Tracks g bits s t)
    (pc : s.pc = .command cqe ∨ s.pc = .prompt cqe) : talk g s.under = [] := by
  obtain ⟨represents, inv⟩ := tracks
  have circulates := inv.circulates
  apply represents.under_quiet
  rcases pc with pc | pc <;> simp only [Tokens.Circulates, represents.phase_eq pc rfl] at circulates
  all_goals exact console_quiet circulates.1 circulates.2

/-- The console is served in turns. In every order in which the program and the kernel take
their steps, with the reads of signals completing in between and no command or child of one
moving the rings, the other requests are completed in the order they were made: a prompt, a
line, a prompt, a line. What is not completed is the end of the last round, and a line is run
with no round begun. -/
theorem console_takes_turns (small : bits ≤ 16) (large : 3 ≤ 2 ^ bits)
    (sqArray : UInt32 → UInt32) (cqes : UInt32 → IoUringCqe)
    (ran : Transition.run (step g) (start bits sqArray cqes) acts = some s) :
    ∃ rounds rest,
      s.completed.filter (fun sqe => !isSignalRead g sqe) ++ rest =
        (List.replicate rounds [promptWrite g, consoleRead g]).flatten ∧
      rest <:+ [promptWrite g, consoleRead g] ∧
      rest = (s.inflight.map EventLoop.Op.sqe ++ s.queued).filter
        (fun sqe => !isSignalRead g sqe) ∧
      ∀ cqe, s.pc = .command cqe ∨ s.pc = .prompt cqe → rest = [] := by
  obtain ⟨t, tracks, alternating⟩ := run_alternates (by omega) large sqArray cqes ran
  have order := alternating.order
  rw [talk_append, talk_calls tracks.1.blocks] at order
  exact ⟨_, _, order, alternating.round, rfl, fun cqe pc => tracks.quiet pc⟩

/-- A signal is read between the prompt and the line. -/
theorem console_takes_turns_signal :
    ∃ s : State, Transition.run (step ⟨3, 100, 200, 300, by decide⟩)
        (start 5 (fun _ => 0) (fun _ => ⟨0, 0, 0⟩))
        [.init true true, .enter, .consume, .consume, .consume, .complete 0 9 0 [],
          .complete 1 (-4) 0 [], .complete 0 2 0 [108, 10]] = some s ∧
      s.completed.length = 3 ∧
      ∃ rounds, s.completed.filter (fun sqe => !isSignalRead ⟨3, 100, 200, 300, by decide⟩ sqe) =
        (List.replicate rounds [promptWrite ⟨3, 100, 200, 300, by decide⟩,
          consoleRead ⟨3, 100, 200, 300, by decide⟩]).flatten := by
  have ran : Transition.run (step ⟨3, 100, 200, 300, by decide⟩)
      (start 5 (fun _ => 0) (fun _ => ⟨0, 0, 0⟩))
      [.init true true, .enter, .consume, .consume, .consume, .complete 0 9 0 [],
        .complete 1 (-4) 0 [], .complete 0 2 0 [108, 10]] = some _ := rfl
  obtain ⟨rounds, rest, turns, -, rfl, -⟩ := console_takes_turns (by decide) (by decide) _ _ ran
  exact ⟨_, ran, rfl, rounds, (List.append_nil _).symm.trans turns⟩

end MinLinux.Init.EventLoop
