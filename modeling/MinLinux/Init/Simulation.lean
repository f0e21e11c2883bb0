import MinLinux.Init.Refinement

/-! Every step of the event loop and its kernel is answered by moves of the token
machine, so what holds of the circulation holds of the rings. -/
namespace MinLinux.Init.EventLoop
open Uring

/-- A store through NULL has no phase. -/
def Pc.phase : Pc → Option Phase
  | .start => some .starting
  | .wait => some .waiting
  | .entering => some .entering
  | .result => some .polling
  | .handle _ => some .handling
  | .command _ => some .commanding
  | .prompt _ => some .prompting
  | .advance => some .advancing
  | .exited => some .exited
  | .fault => none

/-- What one call of `create_console_prompt` or of `submit_sig_listen` enters. -/
def promptCall (g : Globals) : List IoUringSqe := [Kind.prompt.template g, Kind.console.template g]
def signalCall (g : Globals) : List IoUringSqe := [Kind.signal.template g]

structure Represents (g : Globals) (bits : Nat) (s : State) (t : Tokens) : Prop where
  phase : s.pc.phase = some t.phase
  sub : Stocked g s.sub t.queued
  comp : Delivering g bits s.comp s.completed t.done
  inflight : s.inflight.map Op.sqe = t.inflight.map fun k => k.template g
  buffer : s.buffer.length = 1024
  pointer : ∀ cqe, s.pc = .handle cqe → cqe = Ring.slot s.comp.cq.cqMask s.comp.retired
  history : s.sub.accepted = s.calls.flatten.map some
  blocks : ∀ call ∈ s.calls, call = promptCall g ∨ call = signalCall g

/-- The relation kept along runs: the tokens shown are balanced. -/
def Tracks (g : Globals) (bits : Nat) (s : State) (t : Tokens) : Prop :=
  Represents g bits s t ∧ Tokens.Inv t

/-- One move answers, and the token machine keeps its own invariant. -/
theorem Tracks.move (tracks : Tracks g bits s t) (m : Tokens.Move)
    (moved : Tokens.step t m = some t')
    (represents : Represents g bits s' t') :
    ∃ ms t', Transition.run Tokens.step t ms = some t' ∧ Tracks g bits s' t' :=
  ⟨[m], t', by simp [Transition.run, moved], represents, Tokens.step_inv tracks.2 moved⟩

theorem start_tracks (small : bits ≤ 31) (sqArray : UInt32 → UInt32)
    (cqes : UInt32 → IoUringCqe) :
    Tracks g bits (start bits sqArray cqes) Tokens.start := by
  refine ⟨⟨rfl, ?_, ?_, rfl, List.length_replicate, ?_, rfl, ?_⟩, Tokens.start_inv⟩
  · exact ⟨Submission.start_inv (by decide) _ _, rfl, fun _ => ⟨rfl, rfl, rfl, rfl, rfl, rfl⟩⟩
  · exact ⟨Completion.Queue.start_inv small cqes, rfl, rfl, .nil⟩
  · intro cqe impossible
    cases impossible
  · intro call member
    cases member

section Steps
variable {g : Globals} {bits : Nat} {s s' : State} {t : Tokens}

theorem Represents.phase_eq (represents : Represents g bits s t) (pc : s.pc = at_pc)
    (phase : at_pc.phase = some p) : t.phase = p := by
  have same := represents.phase
  rw [pc, phase] at same
  exact (Option.some.inj same).symm

theorem Represents.withPc (represents : Represents g bits s t) (same : pc.phase = some p)
    (pointer : ∀ cqe, pc = .handle cqe → cqe = Ring.slot s.comp.cq.cqMask s.comp.retired) :
    Represents g bits { s with pc := pc } { t with phase := p } :=
  ⟨same, represents.sub, represents.comp, represents.inflight, represents.buffer, pointer,
    represents.history, represents.blocks⟩

theorem Represents.exited (represents : Represents g bits s t) :
    Represents g bits { s with pc := .exited } { t with phase := .exited } :=
  represents.withPc rfl (fun _ impossible => by cases impossible)

/-- A call that submits one block of requests. -/
theorem Represents.submitted (represents : Represents g bits s t)
    {after : Submission.State IoUringSqe} (stocked : Stocked g after (t.queued ++ ks))
    (entries : newEntries s.sub after = block)
    (accepted : after.accepted = s.sub.accepted ++ block.map some)
    (known : block = promptCall g ∨ block = signalCall g) :
    Represents g bits (s.submitted .advance (some after))
      { t with phase := .advancing, queued := t.queued ++ ks } := by
  refine ⟨rfl, stocked, represents.comp, represents.inflight, represents.buffer, ?_, ?_, ?_⟩
  · intro cqe impossible
    cases impossible
  · simp only [State.submitted, accepted, represents.history, entries, List.flatten_append,
      List.flatten_singleton, List.map_append]
  · intro call member
    simp only [State.submitted, entries, List.mem_append, List.mem_singleton] at member
    rcases member with earlier | rfl
    · exact represents.blocks call earlier
    · exact known

theorem prompt_tracks (tracks : Tracks g bits s t) (stepped : step g s .prompt = some s') :
    ∃ ms t', Transition.run Tokens.step t ms = some t' ∧ Tracks g bits s' t' := by
  obtain ⟨cqe, pc, rfl⟩ := step_prompt stepped
  obtain ⟨represents, inv⟩ := tracks
  have prompting := represents.phase_eq pc rfl
  obtain ⟨sub, created, stocked, entries, accepted⟩ :=
    represents.sub.createConsolePrompt inv.queued
  rw [created]
  exact Tracks.move ⟨represents, inv⟩ .prompt (if_pos prompting)
    (represents.submitted stocked entries accepted (.inl rfl))

theorem init_tracks (tracks : Tracks g bits s t)
    (stepped : step g s (.init signalfdOk socketOk) = some s') :
    ∃ ms t', Transition.run Tokens.step t ms = some t' ∧ Tracks g bits s' t' := by
  obtain ⟨pc, rfl⟩ := step_init stepped
  obtain ⟨represents, inv⟩ := tracks
  have starting := represents.phase_eq pc rfl
  have circulates := inv.circulates
  simp only [Tokens.Circulates, starting, Tokens.pipeline, List.append_eq_nil_iff] at circulates
  obtain ⟨⟨-, -⟩, none⟩ := circulates
  cases signalfdOk with
  | false => exact Tracks.move ⟨represents, inv⟩ .exit rfl represents.exited
  | true =>
    obtain ⟨sub₁, first, stocked₁, entries₁, accepted₁⟩ :=
      represents.sub.createConsolePrompt inv.queued
    obtain ⟨sub₂, second, stocked₂, entries₂, accepted₂⟩ :=
      stocked₁.submitSigListen (by rw [none]; decide)
    simp only [init, if_true, first, second, entries₁, entries₂]
    rw [List.append_assoc] at stocked₂
    have begun : Represents g bits
        { s with pc := .wait, sub := sub₂, calls := s.calls ++ [promptCall g, signalCall g] }
        { t with phase := .waiting, queued := t.queued ++ [.prompt, .console, .signal] } := by
      refine ⟨rfl, stocked₂, represents.comp, represents.inflight, represents.buffer, ?_, ?_, ?_⟩
      · intro cqe impossible
        cases impossible
      · simp only [accepted₂, accepted₁, represents.history, List.flatten_append,
          List.map_append, List.append_assoc]
        rfl
      · intro call member
        simp only [List.mem_append, List.mem_cons, List.not_mem_nil, or_false] at member
        rcases member with earlier | rfl | rfl
        · exact represents.blocks call earlier
        · exact .inl rfl
        · exact .inr rfl
    have moved : Tokens.step t .init =
        some { t with phase := .waiting, queued := t.queued ++ [.prompt, .console, .signal] } :=
      if_pos starting
    cases socketOk with
    | true => exact Tracks.move ⟨represents, inv⟩ .init moved begun
    | false =>
      refine ⟨[.init, .exit], _, ?_, begun.exited,
        Tokens.phase_inv (Tokens.step_inv inv moved) trivial⟩
      simp only [Transition.run, moved, Option.bind_some]
      rfl

/-- A console completion is run, refused or ends the program; its last byte is
inside the buffer. -/
theorem processInput_tracks (tracks : Tracks g bits s t) (handling : t.phase = .handling)
    (head : t.done.head? = some .console) (fits : res.toInt ≤ 1024) :
    ∃ ms t', Transition.run Tokens.step t ms = some t' ∧
      Tracks g bits (processInput s cqe res) t' := by
  have represents := tracks.1
  simp only [processInput]
  split
  · rename_i positive
    have low : 0 < res.toInt := Int32.lt_iff_toInt_lt.mp positive
    have within : (res.toInt - 1).toNat < s.buffer.length := by
      rw [represents.buffer]
      omega
    rw [List.getElem?_eq_getElem within]
    dsimp only
    split
    · apply tracks.move .command (if_pos ⟨handling, head⟩)
      refine ⟨rfl, represents.sub, represents.comp, represents.inflight, ?_, ?_,
        represents.history, represents.blocks⟩
      · rw [List.length_set]
        exact represents.buffer
      · intro cqe impossible
        cases impossible
    · refine tracks.move .noCommand (if_pos ⟨handling, head⟩) (represents.withPc rfl ?_)
      intro cqe impossible
      cases impossible
  · exact tracks.move .exit rfl represents.exited

theorem handle_tracks (tracks : Tracks g bits s t) (stepped : step g s .handle = some s') :
    ∃ ms t', Transition.run Tokens.step t ms = some t' ∧ Tracks g bits s' t' := by
  obtain ⟨cqe, pc, rfl⟩ := step_handle stepped
  have represents := tracks.1
  have handling := represents.phase_eq pc rfl
  have circulates := tracks.2.circulates
  simp only [Tokens.Circulates, handling] at circulates
  obtain ⟨k, rest, done⟩ := List.exists_cons_of_ne_nil circulates.2
  have head : t.done.head? = some k := by
    rw [done]
    rfl
  have front := represents.comp
  rw [done] at front
  obtain ⟨userData, fits⟩ := front.front
  rw [← represents.pointer cqe pc] at userData fits
  simp only [handle, userData]
  cases k with
  | console => exact processInput_tracks tracks handling head fits
  | signal =>
    obtain ⟨sub, listening, stocked, entries, accepted⟩ :=
      represents.sub.submitSigListen tracks.2.queued
    rw [listening]
    exact tracks.move .relisten (if_pos ⟨handling, head⟩)
      (represents.submitted stocked entries accepted (.inr rfl))
  | prompt =>
    change ∃ ms t', Transition.run Tokens.step t ms = some t' ∧ Tracks g bits
      (if (s.comp.cq.cqes cqe).res < 0 then { s with pc := .exited }
        else { s with pc := .advance }) t'
    split
    · exact tracks.move .exit rfl represents.exited
    · refine tracks.move .written (if_pos ⟨handling, head⟩) (represents.withPc rfl ?_)
      intro cqe impossible
      cases impossible

theorem consume_tracks (tracks : Tracks g bits s t) (stepped : step g s .consume = some s') :
    ∃ ms t', Transition.run Tokens.step t ms = some t' ∧ Tracks g bits s' t' := by
  obtain ⟨⟨pc, -, behind⟩, rfl⟩ := step_consume stepped
  have represents := tracks.1
  have entering := represents.phase_eq pc rfl
  obtain ⟨k, rest, queued, entry, stocked⟩ := represents.sub.consume behind
  have moved : Tokens.step t .consume =
      some { t with queued := rest, inflight := t.inflight ++ [k] } := by
    simp only [Tokens.step, entering, queued]
  refine tracks.move .consume moved ⟨represents.phase, stocked, represents.comp, ?_,
    represents.buffer, represents.pointer, represents.history, represents.blocks⟩
  simp only [consume, List.map_append, List.map_singleton, entry, represents.inflight]

theorem blocked_iff {inflight : List Op} {ks : List Kind}
    (same : inflight.map Op.sqe = ks.map fun k => k.template g) :
    blocked inflight i = true ↔ (ks.take i).getLast? = some .prompt := by
  have before : ((inflight.take i).getLast?).map Op.sqe =
      ((ks.take i).getLast?).map fun k => k.template g := by
    rw [← List.getLast?_map, ← List.getLast?_map, List.map_take, List.map_take, same]
  cases last : (inflight.take i).getLast? with
  | none =>
    rw [last, Option.map_none, eq_comm, Option.map_eq_none_iff] at before
    simp [blocked, last, before]
  | some op =>
    rw [last, Option.map_some, eq_comm, Option.map_eq_some_iff] at before
    obtain ⟨k, kind, entry⟩ := before
    simp [blocked, last, kind, ← entry, Kind.linked_template]

theorem map_modify_sqe (ops : List Op) (i : Nat) :
    (ops.modify i fun next => { next with canceled := true }).map Op.sqe = ops.map Op.sqe := by
  induction ops generalizing i with
  | nil => simp
  | cons op rest ih =>
    cases i with
    | zero => rfl
    | succ i =>
      rw [List.modify_succ_cons, List.map_cons, List.map_cons, ih]

theorem complete_tracks (large : 3 ≤ 2 ^ bits) (tracks : Tracks g bits s t)
    (stepped : step g s (.complete i res flags data) = some s') :
    ∃ ms t', Transition.run Tokens.step t ms = some t' ∧ Tracks g bits s' t' := by
  obtain ⟨op, entry, allowed, rfl⟩ := step_complete stepped
  have represents := tracks.1
  simp only [Bool.and_eq_true, Bool.not_eq_true', mayComplete, decide_eq_true_eq] at allowed
  obtain ⟨free, ⟨-, fits⟩, brings⟩ := allowed
  have unblocked : ¬ (t.inflight.take i).getLast? = some .prompt := by
    rw [← blocked_iff represents.inflight, free]
    decide
  have kinds := congrArg (fun l : List IoUringSqe => l[i]?) represents.inflight
  simp only [List.getElem?_map, entry, Option.map_some] at kinds
  obtain ⟨k, kind, same⟩ := Option.map_eq_some_iff.mp kinds.symm
  have moved : Tokens.step t (.complete i) =
      some { t with inflight := t.inflight.eraseIdx i, done := t.done ++ [k] } := by
    simp only [Tokens.step, kind, if_neg unblocked]
  have room : t.done.length < 2 ^ bits := by
    have outstanding := tracks.2.outstanding
    have present := (List.getElem?_eq_some_iff.mp kind).1
    rw [List.length_append] at outstanding
    omega
  have completes : Completes g ⟨op.sqe.userData, res, flags⟩ k := by
    rw [← same] at fits ⊢
    exact ⟨rfl, fits⟩
  refine tracks.move (.complete i) moved ⟨represents.phase, represents.sub, ?_, ?_, ?_,
    represents.pointer, represents.history, represents.blocks⟩
  · rw [complete, ← same]
    exact represents.comp.post room (same ▸ completes)
  · have erased : (s.inflight.eraseIdx i).map Op.sqe =
        (t.inflight.eraseIdx i).map fun k => k.template g := by
      rw [List.eraseIdx_eq_take_drop_succ, List.eraseIdx_eq_take_drop_succ, List.map_append,
        List.map_append, List.map_take, List.map_take, List.map_drop, List.map_drop,
        represents.inflight]
    simp only [complete]
    split
    · rw [map_modify_sqe, erased]
    · exact erased
  · have longest := k.template_len g
    have short : data.length ≤ 1024 := by
      rw [← same] at fits
      split at brings <;> omega
    simp only [complete]
    split
    · rw [List.length_append, List.length_drop, represents.buffer]
      omega
    · exact represents.buffer

theorem step_tracks (large : 3 ≤ 2 ^ bits) :
    Transition.Simulates (step g) Tokens.step (Tracks g bits) := by
  intro s a s' t tracks stepped
  have represents := tracks.1
  cases a with
  | init signalfdOk socketOk => exact init_tracks tracks stepped
  | handle => exact handle_tracks tracks stepped
  | prompt => exact prompt_tracks tracks stepped
  | consume => exact consume_tracks tracks stepped
  | complete i res flags data => exact complete_tracks large tracks stepped
  | enter =>
    obtain ⟨pc, rfl⟩ := step_enter stepped
    exact tracks.move .enter (if_pos (represents.phase_eq pc rfl)) ⟨rfl, represents.sub.wait 1,
      represents.comp, represents.inflight, represents.buffer, by simp, represents.history,
      represents.blocks⟩
  | enterReturn res =>
    obtain ⟨pc, rfl⟩ := step_enterReturn stepped
    split
    · exact tracks.move .exit rfl represents.exited
    · exact tracks.move .enterReturn (if_pos (represents.phase_eq pc rfl))
        (represents.withPc rfl (by simp))
  | result =>
    obtain ⟨pc, answer⟩ := step_result stepped
    have moved : Tokens.step t .result =
        some { t with phase := if t.done = [] then .waiting else .handling } :=
      if_pos (represents.phase_eq pc rfl)
    rw [represents.comp.uringResult_eq] at answer
    rcases answer with ⟨empty, rfl⟩ | ⟨cqe, found, rfl⟩
    · have none : t.done = [] := by
        by_contra occupied
        rw [if_neg occupied] at empty
        cases empty
      rw [if_pos none] at moved
      exact tracks.move .result moved (represents.withPc rfl (by simp))
    · have occupied : t.done ≠ [] := by
        intro none
        rw [if_pos none] at found
        cases found
      rw [if_neg occupied] at moved found
      refine tracks.move .result moved (represents.withPc rfl ?_)
      intro pointer same
      cases same
      exact (Option.some.inj found).symm
  | command buffer returns =>
    obtain ⟨cqe, pc, length, rfl⟩ := step_command stepped
    have kept : Represents g bits { s with buffer := buffer } t :=
      ⟨represents.phase, represents.sub, represents.comp, represents.inflight,
        length.trans represents.buffer, represents.pointer, represents.history,
        represents.blocks⟩
    cases returns with
    | true =>
      exact tracks.move .commandReturn (if_pos (represents.phase_eq pc rfl))
        (kept.withPc rfl (by simp))
    | false => exact tracks.move .exit rfl kept.exited
  | advance =>
    obtain ⟨pc, rfl⟩ := step_advance stepped
    have advancing := represents.phase_eq pc rfl
    have circulates := tracks.2.circulates
    simp only [Tokens.Circulates, advancing] at circulates
    obtain ⟨k, rest, done⟩ := List.exists_cons_of_ne_nil circulates.2
    have front := represents.comp
    rw [done] at front
    have moved : Tokens.step t .advance = some { t with phase := .waiting, done := rest } := by
      simp only [Tokens.step, advancing, done, if_true, List.tail_cons]
    exact tracks.move .advance moved ⟨rfl, represents.sub, front.advance, represents.inflight,
      represents.buffer, by simp, represents.history, represents.blocks⟩

end Steps

/-- Every run of the loop shows a balanced circulation at its end. -/
theorem run_tracks (small : bits ≤ 31) (large : 3 ≤ 2 ^ bits) (sqArray : UInt32 → UInt32)
    (cqes : UInt32 → IoUringCqe)
    (ran : Transition.run (step g) (start bits sqArray cqes) acts = some s) :
    ∃ t, Tracks g bits s t := by
  obtain ⟨-, t, -, tracks⟩ :=
    Transition.Simulates.run (step_tracks large) (start_tracks small sqArray cqes) ran
  exact ⟨t, tracks⟩

end MinLinux.Init.EventLoop
