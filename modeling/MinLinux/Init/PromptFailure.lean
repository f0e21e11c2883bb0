import MinLinux.Init.Guarantees

/-! What becomes of the console when a prompt cannot be written in full. The kernel cancels
the read that is linked to the write, and the loop takes the failed read for the end of the
machine: from the failure on no line is run any more, whatever happens in between, as long
as the commands and their children leave the rings alone. -/
namespace MinLinux.Init.EventLoop
open Uring

/-- The completions whose handler has not been entered or not returned. -/
def State.unhandled (s : State) : List IoUringCqe :=
  if s.pc = .advance then s.comp.unretired.tail else s.comp.unretired

/-- The console read fails, wherever it is on its way. -/
inductive Doomed (g : Globals) (s : State) : Prop where
  | posted (cqe : IoUringCqe) (member : cqe ∈ s.unhandled)
      (event : cqe.userData = EVENT_CONSOLE_READ) (failed : cqe.res < 0)
  | inflight (op : Op) (member : op ∈ s.inflight) (console : op.sqe = consoleRead g)
      (canceled : op.canceled = true)
  | queued (cancels : s.cancelNext = true) (next : s.queued.head? = some (consoleRead g))

/-- Where the loop is with no line to run. -/
def Pc.silent : Pc → Bool
  | .wait | .entering | .result | .handle _ | .advance | .exited => true
  | _ => false

/-- The machine goes down without running another line. -/
def Fails (g : Globals) (s : State) : Prop :=
  s.pc.silent = true ∧ (s.pc = .exited ∨ Doomed g s)

section Requests
variable {g : Globals} {bits : Nat} {s s' : State} {t : Tokens}

theorem userData_console (k : Kind) :
    (k.template g).userData = EVENT_CONSOLE_READ ↔ k = .console := by
  cases k with
  | prompt => exact iff_of_false (show EVENT_OTHER ≠ _ by decide) (by decide)
  | console => exact iff_of_true rfl rfl
  | signal => exact iff_of_false (show EVENT_SIGNAL ≠ _ by decide) (by decide)

theorem template_console {k : Kind} (same : k.template g = consoleRead g) : k = .console :=
  (userData_console k).mp (congrArg IoUringSqe.userData same)

/-- The completion being handled, and those behind it. -/
theorem Represents.front (represents : Represents g bits s t) (done : t.done = k :: rest) :
    ∃ first later, s.comp.unretired = first :: later ∧ Completes g first k ∧
      List.Forall₂ (Completes g) later rest ∧
      s.comp.cq.cqes (Ring.slot s.comp.cq.cqMask s.comp.retired) = first := by
  have entries := represents.comp.entries
  rw [done] at entries
  cases unretired : s.comp.unretired with
  | nil =>
    rw [unretired] at entries
    cases entries
  | cons first later =>
    rw [unretired] at entries
    cases entries with
    | cons completes others =>
      exact ⟨first, later, rfl, completes, others, represents.comp.inv.front unretired⟩

theorem completed_kind {cqes : List IoUringCqe} {ks : List Kind}
    (entries : List.Forall₂ (Completes g) cqes ks) (member : cqe ∈ cqes) :
    ∃ k ∈ ks, Completes g cqe k := by
  induction entries with
  | nil => cases member
  | cons completes _ ih =>
    rcases List.mem_cons.mp member with rfl | later
    · exact ⟨_, List.mem_cons_self, completes⟩
    · obtain ⟨k, present, found⟩ := ih later
      exact ⟨k, List.mem_cons_of_mem _ present, found⟩

/-- A console read that is handled is the only one. -/
theorem console_alone (balanced : Tokens.Balanced t.pipeline) (done : t.done = .console :: rest) :
    Kind.console ∉ rest ∧ Kind.console ∉ t.inflight ∧ Kind.console ∉ t.queued := by
  have single := balanced.console
  simp only [Tokens.pipeline, done, List.cons_append, List.count_append,
    List.count_cons_self] at single
  refine ⟨?_, ?_, ?_⟩ <;> rw [← List.count_eq_zero] <;> omega

theorem inflight_console (represents : Represents g bits s t) {op : Op} (member : op ∈ s.inflight)
    (console : op.sqe = consoleRead g) : Kind.console ∈ t.inflight := by
  have listed := List.mem_map_of_mem (f := Op.sqe) member
  rw [represents.inflight, List.mem_map] at listed
  obtain ⟨k, present, same⟩ := listed
  rwa [← template_console (same.trans console)]

theorem queued_console (represents : Represents g bits s t)
    (next : s.queued.head? = some (consoleRead g)) : t.queued.head? = some .console := by
  rw [represents.queued_eq, List.head?_map, Option.map_eq_some_iff] at next
  obtain ⟨k, first, same⟩ := next
  rw [first, template_console same]

/-- What a step of the program does not touch. -/
theorem Doomed.mono (doomed : Doomed g s)
    (unhandled : ∀ cqe ∈ s.unhandled, cqe.userData = EVENT_CONSOLE_READ → cqe ∈ s'.unhandled)
    (inflight : s'.inflight = s.inflight) (cancels : s'.cancelNext = s.cancelNext)
    (queued : s.queued <+: s'.queued) : Doomed g s' := by
  cases doomed with
  | posted cqe member event failed =>
    exact .posted cqe (unhandled cqe member event) event failed
  | inflight op member console canceled =>
    exact .inflight op (inflight ▸ member) console canceled
  | queued cancels' next =>
    refine .queued (cancels.trans cancels') ?_
    obtain ⟨more, same⟩ := queued
    rw [← same, List.head?_append, next]
    rfl

/-- The handler of another request leaves the console read as it is. -/
theorem Doomed.behind (represents : Represents g bits s t) (done : t.done = k :: rest)
    (other : k ≠ .console) (phase : s.pc ≠ .advance) (doomed : Doomed g s)
    (inflight : s'.inflight = s.inflight) (cancels : s'.cancelNext = s.cancelNext)
    (comp : s'.comp = s.comp) (queued : s.queued <+: s'.queued) : Doomed g s' := by
  refine doomed.mono (fun cqe member event => ?_) inflight cancels queued
  obtain ⟨first, later, unretired, completes, -, -⟩ := represents.front done
  rw [State.unhandled, if_neg phase, unretired, List.mem_cons] at member
  rcases member with rfl | behind
  · exact absurd ((userData_console k).mp (completes.1.symm.trans event)) other
  · rw [State.unhandled, comp, unretired]
    split
    · exact behind
    · exact List.mem_cons_of_mem _ behind

/-- A console read that is handled has failed. -/
theorem Doomed.handled (represents : Represents g bits s t) (balanced : Tokens.Balanced t.pipeline)
    (done : t.done = .console :: rest) (phase : s.pc ≠ .advance) (doomed : Doomed g s) :
    (s.comp.cq.cqes (Ring.slot s.comp.cq.cqMask s.comp.retired)).res < 0 := by
  obtain ⟨first, later, unretired, -, others, pointed⟩ := represents.front done
  obtain ⟨rest_none, inflight_none, queued_none⟩ := console_alone balanced done
  rw [pointed]
  cases doomed with
  | posted cqe member event failed =>
    rw [State.unhandled, if_neg phase, unretired, List.mem_cons] at member
    rcases member with rfl | behind
    · exact failed
    · obtain ⟨k, present, completes⟩ := completed_kind others behind
      rw [(userData_console k).mp (completes.1.symm.trans event)] at present
      exact absurd present rest_none
  | inflight op member console canceled =>
    exact absurd (inflight_console represents member console) inflight_none
  | queued cancels next =>
    exact absurd (List.mem_of_head? (queued_console represents next)) queued_none

end Requests

section Steps
variable {g : Globals} {bits : Nat} {s s' : State} {t : Tokens}

theorem handle_fails (tracks : Tracks g bits s t) (fails : Fails g s)
    (stepped : step g s .handle = some s') : Fails g s' := by
  obtain ⟨cqe, pc, rfl⟩ := step_handle stepped
  obtain ⟨represents, inv⟩ := tracks
  have doomed : Doomed g s := by
    refine fails.2.resolve_left ?_
    rw [pc]
    exact Pc.noConfusion
  have phase : s.pc ≠ .advance := by
    rw [pc]
    exact Pc.noConfusion
  have circulates := inv.circulates
  simp only [Tokens.Circulates, represents.phase_eq pc rfl] at circulates
  obtain ⟨k, rest, done⟩ := List.exists_cons_of_ne_nil circulates.2
  have front := represents.comp
  rw [done] at front
  obtain ⟨userData, -⟩ := front.front
  rw [← represents.pointer cqe pc] at userData
  simp only [handle, userData]
  cases k with
  | console =>
    have failed := doomed.handled represents circulates.1 done phase
    rw [← represents.pointer cqe pc] at failed
    have ends : ¬ 0 < (s.comp.cq.cqes cqe).res := by
      rw [Int32.lt_iff_toInt_lt] at failed ⊢
      change (s.comp.cq.cqes cqe).res.toInt < 0 at failed
      change ¬ 0 < (s.comp.cq.cqes cqe).res.toInt
      omega
    change Fails g (processInput s cqe (s.comp.cq.cqes cqe).res)
    rw [processInput, if_neg ends]
    exact ⟨rfl, .inl rfl⟩
  | signal =>
    obtain ⟨sub, listening, stocked, entries, accepted⟩ :=
      represents.sub.submitSigListen inv.queued
    rw [listening]
    change Fails g (s.submitted .advance (some sub))
    refine ⟨rfl, .inr (doomed.behind represents done (by decide) phase rfl rfl rfl ?_)⟩
    have after := (represents.submitted stocked entries accepted (.inr rfl)).queued_eq
    rw [represents.queued_eq, after, List.map_append]
    exact List.prefix_append _ _
  | prompt =>
    change Fails g (if (s.comp.cq.cqes cqe).res < 0 then { s with pc := .exited }
      else { s with pc := .advance })
    split
    · exact ⟨rfl, .inl rfl⟩
    · refine ⟨rfl, .inr (doomed.behind represents done (by decide) phase rfl rfl rfl ?_)⟩
      exact List.prefix_rfl

/-- The read that the kernel takes behind a failed prompt is canceled. -/
theorem consume_fails (tracks : Tracks g bits s t) (fails : Fails g s)
    (stepped : step g s .consume = some s') : Fails g s' := by
  obtain ⟨⟨pc, -, behind⟩, rfl⟩ := step_consume stepped
  have represents := tracks.1
  obtain ⟨k, rest, queued, entry, stocked⟩ := represents.sub.consume behind
  have entering : (consume s).pc = .entering := pc
  refine ⟨by rw [entering]; rfl, .inr ?_⟩
  have doomed : Doomed g s := by
    refine fails.2.resolve_left ?_
    rw [pc]
    exact Pc.noConfusion
  cases doomed with
  | posted cqe member event failed =>
    exact .posted cqe member event failed
  | inflight op member console canceled =>
    exact .inflight op (List.mem_append_left _ member) console canceled
  | queued cancels next =>
    have console := queued_console represents next
    rw [queued] at console
    cases console
    refine .inflight ⟨(Submission.consumeEntry s.sub.sq).1, s.cancelNext⟩ ?_ entry cancels
    exact List.mem_append_right _ (List.mem_singleton_self _)

theorem canceled_modify {ops : List Op} (member : op ∈ ops) (canceled : op.canceled = true) (i : Nat) :
    ∃ op' ∈ ops.modify i fun next => { next with canceled := true },
      op'.sqe = op.sqe ∧ op'.canceled = true := by
  induction ops generalizing i with
  | nil => cases member
  | cons first rest ih =>
    cases i with
    | zero =>
      rcases List.mem_cons.mp member with rfl | later
      · exact ⟨{ op with canceled := true }, List.mem_cons_self, rfl, rfl⟩
      · exact ⟨op, List.mem_cons_of_mem _ later, rfl, canceled⟩
    | succ i =>
      rw [List.modify_succ_cons]
      rcases List.mem_cons.mp member with rfl | later
      · exact ⟨op, List.mem_cons_self, rfl, canceled⟩
      · obtain ⟨op', found, same, canceled'⟩ := ih later i
        exact ⟨op', List.mem_cons_of_mem _ found, same, canceled'⟩

theorem unhandled_complete (tracks : Tracks g bits s t) :
    (complete g s i op res flags data).unhandled =
      s.unhandled ++ [⟨op.sqe.userData, res, flags⟩] := by
  obtain ⟨represents, inv⟩ := tracks
  have posted := represents.comp.inv.unretired_post ⟨op.sqe.userData, res, flags⟩
  simp only [State.unhandled, complete, posted]
  split
  · rename_i advancing
    have circulates := inv.circulates
    simp only [Tokens.Circulates, represents.phase_eq advancing rfl] at circulates
    have occupied := List.length_pos_iff.mpr circulates.2
    rw [← represents.comp.unretired_length, List.length_pos_iff] at occupied
    exact List.tail_append_of_ne_nil occupied
  · rfl

theorem Doomed.complete (tracks : Tracks g bits s t) (doomed : Doomed g s)
    (entry : s.inflight[i]? = some op) (allowed : mayComplete op res data = true) :
    Doomed g (complete g s i op res flags data) := by
  cases doomed with
  | posted cqe member event failed =>
    refine .posted cqe ?_ event failed
    rw [unhandled_complete tracks]
    exact List.mem_append_left _ member
  | queued cancels next =>
    refine .queued ?_ next
    simp only [EventLoop.complete, cancels, Bool.true_or]
  | inflight op' member console canceled =>
    obtain ⟨j, within, same⟩ := List.mem_iff_getElem.mp member
    by_cases completed : j = i
    · subst completed
      rw [List.getElem?_eq_getElem within, same] at entry
      cases entry
      simp only [mayComplete, canceled, Bool.not_true, Bool.false_or, Bool.and_eq_true,
        decide_eq_true_eq] at allowed
      refine .posted ⟨op.sqe.userData, res, flags⟩ ?_ ?_ allowed.1.1
      · rw [unhandled_complete tracks]
        exact List.mem_append_right _ (List.mem_singleton_self _)
      · rw [console]
        rfl
    · have left : op' ∈ s.inflight.eraseIdx i :=
        List.mem_eraseIdx_iff_getElem.mpr ⟨j, within, completed, same⟩
      by_cases breaks : (linked op.sqe && decide (res.toInt ≠ op.sqe.len.toNat)) = true
      · obtain ⟨op'', found, sqe, canceled'⟩ := canceled_modify left canceled i
        refine .inflight op'' ?_ (sqe.trans console) canceled'
        simp only [EventLoop.complete, breaks, if_true]
        exact found
      · refine .inflight op' ?_ console canceled
        simp only [EventLoop.complete, breaks]
        exact left

theorem Fails.doomed (fails : Fails g s) (runs : s.pc ≠ .exited) : Doomed g s :=
  fails.2.resolve_left runs

/-- The program goes on from one place to another with the same requests under way. -/
theorem Doomed.moved (doomed : Doomed g s) (before : s.pc ≠ .advance) (after : s'.pc ≠ .advance)
    (comp : s'.comp = s.comp) (inflight : s'.inflight = s.inflight)
    (cancels : s'.cancelNext = s.cancelNext) (queued : s'.queued = s.queued) : Doomed g s' := by
  refine doomed.mono (fun cqe member _ => ?_) inflight cancels (queued ▸ List.prefix_rfl)
  rw [State.unhandled, if_neg before] at member
  rw [State.unhandled, if_neg after, comp]
  exact member

theorem step_fails (tracks : Tracks g bits s t) (fails : Fails g s)
    (stepped : step g s a = some s') : Fails g s' := by
  have silent := fails.1
  cases a with
  | handle => exact handle_fails tracks fails stepped
  | consume => exact consume_fails tracks fails stepped
  | init signalfdOk socketOk =>
    rw [(step_init stepped).1] at silent
    cases silent
  | command buffer returns =>
    obtain ⟨cqe, pc, -, -⟩ := step_command stepped
    rw [pc] at silent
    cases silent
  | prompt =>
    obtain ⟨cqe, pc, -⟩ := step_prompt stepped
    rw [pc] at silent
    cases silent
  | complete i res flags data =>
    obtain ⟨op, entry, allowed, rfl⟩ := step_complete stepped
    simp only [Bool.and_eq_true] at allowed
    exact ⟨silent, fails.2.imp_right fun doomed => doomed.complete tracks entry allowed.2⟩
  | enter =>
    obtain ⟨pc, rfl⟩ := step_enter stepped
    have doomed := fails.doomed (by simp [pc])
    exact ⟨rfl, .inr (doomed.moved (by simp [pc]) Pc.noConfusion rfl rfl rfl rfl)⟩
  | enterReturn res =>
    obtain ⟨pc, rfl⟩ := step_enterReturn stepped
    have doomed := fails.doomed (by simp [pc])
    split
    · exact ⟨rfl, .inl rfl⟩
    · exact ⟨rfl, .inr (doomed.moved (by simp [pc]) Pc.noConfusion rfl rfl rfl rfl)⟩
  | result =>
    obtain ⟨pc, answer⟩ := step_result stepped
    have doomed := fails.doomed (by simp [pc])
    rcases answer with ⟨-, rfl⟩ | ⟨cqe, -, rfl⟩
    · exact ⟨rfl, .inr (doomed.moved (by simp [pc]) Pc.noConfusion rfl rfl rfl rfl)⟩
    · exact ⟨rfl, .inr (doomed.moved (by simp [pc]) Pc.noConfusion rfl rfl rfl rfl)⟩
  | advance =>
    obtain ⟨pc, rfl⟩ := step_advance stepped
    refine ⟨rfl, .inr ((fails.doomed (by simp [pc])).mono ?_ rfl rfl List.prefix_rfl)⟩
    intro cqe member _
    rw [State.unhandled, if_pos pc] at member
    obtain ⟨first, later, unretired⟩ := List.exists_cons_of_ne_nil
      (List.ne_nil_of_mem (List.mem_of_mem_tail member))
    rw [unretired] at member
    change cqe ∈ s.comp.advance.unretired
    rw [Completion.Queue.unretired_advance unretired]
    exact member

theorem linked_next {l : List Kind} (linked : Tokens.Linked l) (prompt : l[i]? = some .prompt) :
    l[i + 1]? = some .console := by
  induction l generalizing i with
  | nil => cases prompt
  | cons k rest ih =>
    obtain ⟨follows, linked⟩ := linked
    cases i with
    | zero =>
      rw [List.getElem?_cons_succ, ← List.head?_eq_getElem?]
      exact follows (Option.some.inj prompt)
    | succ i => exact ih linked prompt

/-- With a prompt in flight the loop is at no line, since a line comes behind its prompt. -/
theorem prompt_silent (tracks : Tracks g bits s t) (prompt : Kind.prompt ∈ t.inflight) :
    s.pc.silent = true := by
  obtain ⟨represents, inv⟩ := tracks
  have alone : Tokens.Balanced t.pipeline → t.done.head? ≠ some .console := by
    intro balanced head
    obtain ⟨rest, done⟩ := List.head?_eq_some_iff.mp head
    have whole : t.pipeline = .console :: (rest ++ t.inflight ++ t.queued) := by
      rw [Tokens.pipeline, done]
      rfl
    rw [whole] at balanced
    have member : Kind.prompt ∈ rest ++ t.inflight ++ t.queued := by simp [prompt]
    rw [balanced.after_console] at member
    cases List.mem_singleton.mp member
  have circulates := inv.circulates
  cases pc : s.pc with
  | wait | entering | result | handle | advance | exited => rfl
  | start =>
    simp only [Tokens.Circulates, represents.phase_eq pc rfl, Tokens.pipeline,
      List.append_eq_nil_iff] at circulates
    rw [circulates.1.2] at prompt
    cases prompt
  | command | prompt =>
    simp only [Tokens.Circulates, represents.phase_eq pc rfl] at circulates
    exact absurd circulates.2 (alone circulates.1)
  | fault =>
    have phase := represents.phase
    rw [pc] at phase
    cases phase

/-- The kernel cancels what is linked to a write that is not complete. -/
theorem complete_breaks {res : Int32} (tracks : Tracks g bits s t) (entry : s.inflight[i]? = some op)
    (prompt : op.sqe = promptWrite g) (broken : res.toInt ≠ promptLength.toNat) :
    Fails g (complete g s i op res flags data) := by
  obtain ⟨represents, inv⟩ := tracks
  have kinds := congrArg (fun l : List IoUringSqe => l[i]?) represents.inflight
  simp only [List.getElem?_map, entry, Option.map_some, prompt] at kinds
  obtain ⟨k, found, same⟩ := Option.map_eq_some_iff.mp kinds.symm
  have link : linked (promptWrite g) = true := Kind.linked_template g .prompt
  have kind : k = .prompt := by
    rw [← same, Kind.linked_template, decide_eq_true_eq] at link
    exact link
  subst kind
  have within := (List.getElem?_eq_some_iff.mp found).1
  have next := linked_next (i := i) inv.linked (by rwa [List.getElem?_append_left within])
  have breaks : (linked op.sqe && decide (res.toInt ≠ op.sqe.len.toNat)) = true := by
    rw [prompt, Bool.and_eq_true, decide_eq_true_eq]
    exact ⟨link, broken⟩
  have sized : s.inflight.length = t.inflight.length := by
    simpa using congrArg List.length represents.inflight
  have silent : s.pc.silent = true := prompt_silent ⟨represents, inv⟩ (List.mem_of_getElem? found)
  refine ⟨silent, .inr ?_⟩
  by_cases behind : i + 1 < s.inflight.length
  · rw [List.getElem?_append_left (by omega)] at next
    refine .inflight { s.inflight[i + 1] with canceled := true } ?_ ?_ rfl
    · simp only [complete, breaks, if_true]
      apply List.mem_of_getElem? (i := i)
      rw [List.getElem?_modify_eq, List.getElem?_eraseIdx_of_ge (Nat.le_refl _),
        List.getElem?_eq_getElem behind]
      rfl
    · have template := congrArg (fun l : List IoUringSqe => l[i + 1]?) represents.inflight
      simp only [List.getElem?_map, next, List.getElem?_eq_getElem behind, Option.map_some] at template
      exact Option.some.inj template
  · rw [List.getElem?_append_right (by omega)] at next
    refine .queued ?_ ?_
    · have last : i = (s.inflight.eraseIdx i).length := by
        rw [List.length_eraseIdx_of_lt (by omega)]
        omega
      simp only [complete, breaks, Bool.true_and, Bool.or_eq_true, decide_eq_true_eq]
      exact .inr last
    · rw [show i + 1 - t.inflight.length = 0 by omega, ← List.head?_eq_getElem?] at next
      change s.queued.head? = some (consoleRead g)
      rw [represents.queued_eq, List.head?_map, next]
      rfl

end Steps

/-- A prompt that is not written in full is the last one. From its completion on, in every
order of the steps of the program and the kernel in which commands and their children leave
the rings alone, the loop gets to no line and to no other prompt: all it can still do is to
take the machine down. -/
theorem prompt_failure_final (small : bits ≤ 16) (large : 3 ≤ 2 ^ bits)
    (sqArray : UInt32 → UInt32) (cqes : UInt32 → IoUringCqe)
    (ran : Transition.run (step g) (start bits sqArray cqes) acts = some s)
    (entry : s.inflight[i]? = some op) (prompt : op.sqe = promptWrite g)
    (completed : step g s (.complete i res flags data) = some s')
    (broken : res.toInt ≠ promptLength.toNat)
    (later : Transition.run (step g) s' more = some s'') :
    (∀ cqe, s''.pc ≠ .command cqe) ∧ (∀ cqe, s''.pc ≠ .prompt cqe) := by
  obtain ⟨t, tracks⟩ := run_tracks (by omega) large sqArray cqes ran
  obtain ⟨op', entry', -, rfl⟩ := step_complete completed
  cases entry.symm.trans entry'
  obtain ⟨-, t', -, tracks'⟩ := step_tracks large tracks completed
  have fails : Fails g (complete g s i op res flags data) :=
    complete_breaks tracks entry prompt broken
  obtain ⟨⟨-, -⟩, silent, -⟩ := Transition.run_invariant
    (P := fun s => (∃ t, Tracks g bits s t) ∧ Fails g s) (by
      rintro s a s' ⟨⟨t, tracks⟩, fails⟩ stepped
      obtain ⟨-, t', -, tracks'⟩ := step_tracks large tracks stepped
      exact ⟨⟨t', tracks'⟩, step_fails tracks fails stepped⟩) ⟨⟨t', tracks'⟩, fails⟩ later
  constructor
  · intro cqe pc
    rw [pc] at silent
    cases silent
  · intro cqe pc
    rw [pc] at silent
    cases silent

/-- Five bytes of the first prompt are written, and the read behind it is canceled. -/
theorem prompt_failure_final_short : ∃ (s s' s'' : State) (more : List Action),
    step ⟨3, 100, 200, 300, by decide⟩ s (.complete 0 5 0 []) = some s' ∧
    Transition.run (step ⟨3, 100, 200, 300, by decide⟩) s' more = some s'' ∧ more.length = 11 ∧
    s'.pc = .entering ∧ s''.pc = .exited ∧ ∀ cqe, s''.pc ≠ .command cqe := by
  let g : Globals := ⟨3, 100, 200, 300, by decide⟩
  let more : List Action := [.consume, .consume, .complete 0 (-125) 0 [], .enterReturn 3, .result,
    .handle, .advance, .enter, .enterReturn 0, .result, .handle]
  let s := (Transition.run (step g) (start 5 (fun _ => 0) (fun _ => ⟨0, 0, 0⟩))
    [.init true true, .enter, .consume]).get (by decide +kernel)
  let s' := (step g s (.complete 0 5 0 [])).get (by decide +kernel)
  let s'' := (Transition.run (step g) s' more).get (by decide +kernel)
  have completed : step g s (.complete 0 5 0 []) = some s' := (Option.some_get _).symm
  have later : Transition.run (step g) s' more = some s'' := (Option.some_get _).symm
  have entry : s.inflight[0]? = some ⟨promptWrite g, false⟩ := by decide +kernel
  have silent := prompt_failure_final (s := s) (by decide) (by decide) _ _ (Option.some_get _).symm
    entry rfl completed (by decide) later
  exact ⟨s, s', s'', more, completed, later, rfl, by decide +kernel, by decide +kernel, silent.1⟩

end MinLinux.Init.EventLoop
