import Mathlib.Data.List.ReduceOption
import MinLinux.Init.Simulation

/-! What the circulation of tokens guarantees of the rings themselves: how many
requests of each kind are under way, that the rings never fill, and what the kernel
finds in every entry it consumes. -/
namespace MinLinux.Init.EventLoop
open Uring

/-- A read of STDIN into `buffer`. -/
def isConsoleRead (g : Globals) (sqe : IoUringSqe) : Bool :=
  sqe.opcode == IORING_OP_READ && sqe.fd == STDIN && sqe.addr == g.buffer

/-- A read of the signal descriptor into `siginfo`. -/
def isSignalRead (g : Globals) (sqe : IoUringSqe) : Bool :=
  sqe.opcode == IORING_OP_READ && sqe.fd == g.sigfd && sqe.addr == g.siginfo

/-- Requests queued, in flight, or completed and not yet retired. -/
def State.pending (s : State) : List IoUringSqe :=
  s.queued ++ s.inflight.map Op.sqe ++ s.unretired

theorem isConsoleRead_template (g : Globals) (k : Kind) :
    isConsoleRead g (k.template g) = (k == .console) := by
  cases k
  · simp [isConsoleRead, Kind.template, Kind.write, writePrompt, IORING_OP_READ, IORING_OP_WRITE]
  · simp [isConsoleRead, Kind.template, Kind.write, writeConsole]
  · have other : (g.siginfo == g.buffer) = false := beq_false_of_ne g.distinct.symm
    simp [isConsoleRead, Kind.template, Kind.write, writeSignal, other]

theorem isSignalRead_template (g : Globals) (k : Kind) :
    isSignalRead g (k.template g) = (k == .signal) := by
  cases k
  · simp [isSignalRead, Kind.template, Kind.write, writePrompt, IORING_OP_READ, IORING_OP_WRITE]
  · have other : (g.buffer == g.siginfo) = false := beq_false_of_ne g.distinct
    simp [isSignalRead, Kind.template, Kind.write, writeConsole, other]
  · simp [isSignalRead, Kind.template, Kind.write, writeSignal]

theorem countP_console (g : Globals) (ks : List Kind) :
    (ks.map fun k => k.template g).countP (isConsoleRead g) = ks.count .console := by
  rw [List.countP_map, List.count]
  exact List.countP_congr fun k _ => by simp [isConsoleRead_template]

theorem countP_signal (g : Globals) (ks : List Kind) :
    (ks.map fun k => k.template g).countP (isSignalRead g) = ks.count .signal := by
  rw [List.countP_map, List.count]
  exact List.countP_congr fun k _ => by simp [isSignalRead_template]

namespace Represents
variable {g : Globals} {bits : Nat} {s : State} {t : Tokens}

theorem queued_eq (represents : Represents g bits s t) :
    s.queued = t.queued.map fun k => k.template g := by
  rw [State.queued, represents.sub.queued, List.reduceOption, List.filterMap_map]
  simp

theorem unretired_eq (represents : Represents g bits s t) :
    s.unretired = t.done.map fun k => k.template g := represents.comp.unretired

theorem pending_perm (represents : Represents g bits s t) :
    s.pending.Perm (t.pipeline.map fun k => k.template g) := by
  rw [State.pending, represents.queued_eq, represents.inflight, represents.unretired_eq,
    Tokens.pipeline, List.map_append, List.map_append]
  exact List.perm_append_comm.trans (List.perm_append_comm.append_left _ |>.trans
    (by rw [← List.append_assoc]))

theorem unconsumed (represents : Represents g bits s t) :
    s.sub.accepted.length - s.sub.consumed.length = t.queued.length := represents.sub.pending

theorem posted (represents : Represents g bits s t) :
    s.comp.posted.length - s.comp.retired = t.done.length := by
  rw [← represents.comp.unretired_length, Completion.Queue.unretired_length]

/-- At the top of an iteration one read of each kind is under way. -/
theorem pending_at_wait (represents : Represents g bits s t) (inv : Tokens.Inv t)
    (pc : s.pc = .wait) :
    s.pending.countP (isSignalRead g) = 1 ∧ s.pending.countP (isConsoleRead g) = 1 := by
  have waiting := represents.phase_eq pc rfl
  have balanced := inv.circulates
  simp only [Tokens.Circulates, waiting] at balanced
  rw [represents.pending_perm.countP_eq, represents.pending_perm.countP_eq, countP_signal,
    countP_console]
  exact ⟨balanced.signal, balanced.console⟩

/-- The console read whose line is being run is the only one there is. -/
theorem quiet_at_command (represents : Represents g bits s t) (inv : Tokens.Inv t)
    (pc : s.pc = .command cqe) :
    ∀ sqe ∈ s.queued ++ s.inflight.map Op.sqe, isConsoleRead g sqe = false := by
  intro sqe member
  have commanding := represents.phase_eq pc rfl
  have circulates := inv.circulates
  simp only [Tokens.Circulates, commanding] at circulates
  obtain ⟨balanced, head⟩ := circulates
  obtain ⟨rest, done⟩ := List.head?_eq_some_iff.mp head
  have single := balanced.console
  simp only [Tokens.pipeline, done, List.count_append, List.cons_append,
    List.count_cons_self] at single
  have absent : Kind.console ∉ t.queued ++ t.inflight := by
    rw [← List.count_eq_zero, List.count_append]
    omega
  rw [represents.queued_eq, represents.inflight, ← List.map_append, List.mem_map] at member
  obtain ⟨k, present, rfl⟩ := member
  rw [isConsoleRead_template]
  exact beq_false_of_ne fun same => absent (same ▸ present)

end Represents

/-- The token invariant of the loop. At the top of every iteration one signal read
and one console read are pending; while a command runs no console read can touch the
buffer; at most three submissions and three completions are ever outstanding, so no
submission is refused and the completion ring never fills. -/
theorem event_loop_tokens (small : bits ≤ 16) (large : 3 ≤ 2 ^ bits)
    (sqArray : UInt32 → UInt32) (cqes : UInt32 → IoUringCqe)
    (ran : Transition.run (step g) (start bits sqArray cqes) acts = some s) :
    (s.pc = .wait →
      s.pending.countP (isSignalRead g) = 1 ∧ s.pending.countP (isConsoleRead g) = 1) ∧
    (∀ cqe, s.pc = .command cqe →
      ∀ sqe ∈ s.queued ++ s.inflight.map Op.sqe, isConsoleRead g sqe = false) ∧
    s.queued.length = s.sub.accepted.length - s.sub.consumed.length ∧
    s.sub.accepted.length - s.sub.consumed.length ≤ 3 ∧
    s.comp.posted.length - s.comp.retired ≤ 3 ∧
    (createConsolePrompt g s.sub).isSome ∧ (submitSigListen g s.sub).isSome ∧ s.pc ≠ .fault := by
  obtain ⟨t, represents, inv⟩ := run_tracks (by omega) large sqArray cqes ran
  refine ⟨represents.pending_at_wait inv, fun cqe => represents.quiet_at_command inv,
    ?_, ?_, ?_, ?_, ?_, ?_⟩
  · rw [represents.queued_eq, List.length_map, represents.unconsumed]
  · rw [represents.unconsumed]
    exact inv.queued
  · rw [represents.posted]
    have outstanding := inv.outstanding
    rw [List.length_append] at outstanding
    omega
  · obtain ⟨sub, created, -⟩ := represents.sub.createConsolePrompt inv.queued
    rw [created]
    rfl
  · obtain ⟨sub, listening, -⟩ := represents.sub.submitSigListen inv.queued
    rw [listening]
    rfl
  · intro fault
    have phase := represents.phase
    rw [fault] at phase
    cases phase

/-- Run up to the first command: the prompt is written, then a line arrives. -/
theorem event_loop_tokens_first_command :
    ∃ s : State, Transition.run (step ⟨3, 100, 200, 300, by decide⟩)
        (start 5 (fun _ => 0) (fun _ => ⟨0, 0, 0⟩))
        [.init true true, .enter, .consume, .consume, .consume, .complete 0 9 0 [],
          .complete 0 2 0 [108, 10], .enterReturn 3, .result, .handle, .advance, .enter,
          .enterReturn 0, .result, .handle] = some s ∧
      s.pc = .command 1 ∧ s.comp.posted.length = 2 ∧
      (∀ sqe ∈ s.queued ++ s.inflight.map Op.sqe,
        isConsoleRead ⟨3, 100, 200, 300, by decide⟩ sqe = false) := by
  have ran : Transition.run (step ⟨3, 100, 200, 300, by decide⟩)
      (start 5 (fun _ => 0) (fun _ => ⟨0, 0, 0⟩))
      [.init true true, .enter, .consume, .consume, .consume, .complete 0 9 0 [],
        .complete 0 2 0 [108, 10], .enterReturn 3, .result, .handle, .advance, .enter,
        .enterReturn 0, .result, .handle] = some _ := rfl
  exact ⟨_, ran, rfl, rfl, (event_loop_tokens (by decide) (by decide) _ _ ran).2.1 1 rfl⟩

/-- The linked write of the prompt, the read of a line and the read of a signal, in
all their fields. -/
def promptWrite (g : Globals) : IoUringSqe :=
  { IoUringSqe.zero with
    opcode := IORING_OP_WRITE, flags := IOSQE_IO_LINK, fd := STDOUT, addr := g.prompt,
    len := promptLength, userData := EVENT_OTHER }
def consoleRead (g : Globals) : IoUringSqe :=
  { IoUringSqe.zero with
    opcode := IORING_OP_READ, fd := STDIN, addr := g.buffer, len := bufferSize,
    userData := EVENT_CONSOLE_READ }
def signalRead (g : Globals) : IoUringSqe :=
  { IoUringSqe.zero with
    opcode := IORING_OP_READ, fd := g.sigfd, addr := g.siginfo, len := siginfoSize,
    userData := EVENT_SIGNAL }

theorem signalCall_unlinked (g : Globals) : ∀ sqe ∈ signalCall g, linked sqe = false := by
  intro sqe member
  rw [List.mem_singleton.mp member]
  exact Kind.linked_template g .signal

theorem promptCall_linked (found : (promptCall g)[i]? = some sqe) (link : linked sqe = true) :
    i = 0 := by
  match i, found with
  | 0, _ => rfl
  | 1, found =>
    cases found
    exact absurd link (by rw [Kind.linked_template]; decide)

/-- In a history of whole calls a link can only stand at the start of a prompt call. -/
theorem linked_starts_prompt
    (blocks : ∀ call ∈ calls, call = promptCall g ∨ call = signalCall g)
    (found : calls.flatten[i]? = some sqe) (link : linked sqe = true) :
    ∃ before after, calls = before ++ promptCall g :: after ∧ before.flatten.length = i := by
  induction calls generalizing i with
  | nil => cases found
  | cons call rest ih =>
    have later := fun c member => blocks c (List.mem_cons_of_mem call member)
    rw [List.flatten_cons, List.getElem?_append] at found
    split at found
    · rename_i within
      rcases blocks call List.mem_cons_self with rfl | rfl
      · exact ⟨[], rest, rfl, (promptCall_linked found link).symm⟩
      · have unlinked := signalCall_unlinked g sqe (List.mem_of_getElem? found)
        rw [link] at unlinked
        cases unlinked
    · rename_i beyond
      obtain ⟨before, after, same, length⟩ := ih later found
      refine ⟨call :: before, after, by rw [same, List.cons_append], ?_⟩
      rw [List.flatten_cons, List.length_append, length]
      omega

/-- Recycled entries keep nothing of their past: the kernel only ever consumes the
three requests, whole. What follows a linked write is the console read made by the
same call. -/
theorem submissions_keep_no_residue (small : bits ≤ 16) (large : 3 ≤ 2 ^ bits)
    (sqArray : UInt32 → UInt32) (cqes : UInt32 → IoUringCqe)
    (ran : Transition.run (step g) (start bits sqArray cqes) acts = some s) :
    s.sub.consumed.map some <+: s.sub.accepted ∧
    (∀ sqe ∈ s.sub.consumed, sqe = promptWrite g ∨ sqe = consoleRead g ∨ sqe = signalRead g) ∧
    (∀ i sqe, s.sub.accepted[i]? = some (some sqe) → sqe = promptWrite g ∨ linked sqe = true →
      sqe = promptWrite g ∧ linked sqe = true ∧
      s.sub.accepted[i + 1]? = some (some (consoleRead g)) ∧
      ∃ before after, s.calls = before ++ [promptWrite g, consoleRead g] :: after ∧
        before.flatten.length = i) := by
  obtain ⟨t, represents, -⟩ := run_tracks (by omega) large sqArray cqes ran
  have delivered : s.sub.consumed.map some <+: s.sub.accepted :=
    represents.sub.inv.fifo.consumed_prefix
  refine ⟨delivered, ?_, ?_⟩
  · intro sqe member
    have accepted := delivered.subset (List.mem_map_of_mem member)
    rw [represents.history, List.mem_map] at accepted
    obtain ⟨entry, made, same⟩ := accepted
    cases same
    obtain ⟨call, known, inside⟩ := List.mem_flatten.mp made
    rcases represents.blocks call known with rfl | rfl
    · rcases List.mem_pair.mp inside with rfl | rfl
      · exact .inl rfl
      · exact .inr (.inl rfl)
    · exact .inr (.inr (List.mem_singleton.mp inside))
  · intro i sqe found either
    have link : linked sqe = true := by
      rcases either with rfl | link
      · exact Kind.linked_template g .prompt
      · exact link
    rw [represents.history, List.getElem?_map, Option.map_eq_some_iff] at found
    obtain ⟨entry, found, same⟩ := found
    cases same
    obtain ⟨before, after, split, rfl⟩ := linked_starts_prompt represents.blocks found link
    rw [split, List.flatten_append, List.flatten_cons, List.getElem?_append_right (Nat.le_refl _),
      Nat.sub_self] at found
    cases found
    refine ⟨rfl, link, ?_, before, after, split, rfl⟩
    rw [represents.history, split, List.flatten_append, List.flatten_cons, List.getElem?_map,
      List.getElem?_append_right (Nat.le_add_right _ 1), Nat.add_sub_cancel_left]
    rfl

/-- The signal request goes round once, through a fourth entry. -/
theorem submissions_keep_no_residue_signal :
    ∃ s : State, Transition.run (step ⟨3, 100, 200, 300, by decide⟩)
        (start 5 (fun _ => 0) (fun _ => ⟨0, 0, 0⟩))
        [.init true true, .enter, .consume, .consume, .consume,
          .complete 2 (-4) 0 [], .enterReturn 3, .result, .handle, .advance,
          .enter, .consume] = some s ∧
      s.sub.consumed.length = 4 ∧
      s.sub.accepted[1]? = some (some (consoleRead ⟨3, 100, 200, 300, by decide⟩)) := by
  have ran : Transition.run (step ⟨3, 100, 200, 300, by decide⟩)
      (start 5 (fun _ => 0) (fun _ => ⟨0, 0, 0⟩))
      [.init true true, .enter, .consume, .consume, .consume,
        .complete 2 (-4) 0 [], .enterReturn 3, .result, .handle, .advance,
        .enter, .consume] = some _ := rfl
  obtain ⟨-, -, follows⟩ := submissions_keep_no_residue (by decide) (by decide) _ _ ran
  exact ⟨_, ran, rfl, (follows 0 (promptWrite _) rfl (.inl rfl)).2.2.1⟩

end MinLinux.Init.EventLoop
