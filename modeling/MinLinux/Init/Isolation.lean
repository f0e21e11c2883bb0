import MinLinux.Init.Simulation
import MinLinux.Init.Spawn

/-! Children leave the rings alone as long as no `execveat` fails: then a child ends
inside of `process_command`, so at most one process waits and the rings it finds again
are those it left. -/
namespace MinLinux.Init.Spawn
open Uring EventLoop Command

/-- Every event handled is retired, except the one being handled. -/
def Counted (s : EventLoop.State) (handled : Nat) : Prop :=
  match s.pc with
  | .start | .wait | .entering | .result | .handle _ => s.comp.retired = handled
  | .command _ | .prompt _ | .advance => s.comp.retired + 1 = handled
  | .exited | .fault => True

/-- The parent's own state, as it was in the command that made the child. -/
def suspended (s : EventLoop.State) (p : Parent) : EventLoop.State :=
  { s with pc := .command p.cqe, buffer := p.buffer }

/-- A parent whose child has ended without touching the rings. -/
structure Frozen (g : Globals) (bits : Nat) (s : System) (p : Parent) : Prop where
  ended : hasEnded s.loop.pc = true
  uring : s.loop.sub.uring = p.uring
  held : s.loop.sub.held = p.held
  atClone : shared s.loop = p.atClone
  counted : Counted (suspended s.loop p) s.handled
  tracks : ∃ t, Tracks g bits (suspended s.loop p) t

inductive Isolated (g : Globals) (bits : Nat) (s : System) : Prop where
  | running : s.parents = [] → Counted s.loop s.handled → (∃ t, Tracks g bits s.loop t) →
      Isolated g bits s
  | waiting : s.parents = [p] → Frozen g bits s p → Isolated g bits s
  | ended : s.parents = [] → hasEnded s.loop.pc = true → Isolated g bits s

section Loop
variable {g : Globals} {s s' : EventLoop.State} {n : Nat}

theorem handle_counted (counted : s.comp.retired = n) : Counted (EventLoop.handle g s cqe) (n + 1) := by
  have next : s.comp.retired + 1 = n + 1 := by rw [counted]
  simp only [EventLoop.handle, processInput, State.submitted]
  repeat' split
  all_goals first | exact next | trivial

theorem init_counted (counted : s.comp.retired = n) : Counted (EventLoop.init g s signalfdOk socketOk) n := by
  simp only [EventLoop.init]
  repeat' split
  all_goals first | exact counted | trivial

theorem step_counted (counted : Counted s n) (loops : isCommand a = false)
    (stepped : EventLoop.step g s a = some s') :
    Counted s' (if isHandle a then n + 1 else n) := by
  rw [Counted] at counted
  cases a with
  | init signalfdOk socketOk =>
    obtain ⟨pc, rfl⟩ := step_init stepped
    rw [pc] at counted
    exact init_counted counted
  | enter =>
    obtain ⟨pc, rfl⟩ := step_enter stepped
    rw [pc] at counted
    exact counted
  | enterReturn res =>
    obtain ⟨pc, rfl⟩ := step_enterReturn stepped
    rw [pc] at counted
    split
    · trivial
    · exact counted
  | result =>
    obtain ⟨pc, ⟨-, rfl⟩ | ⟨cqe, -, rfl⟩⟩ := step_result stepped
    · rw [pc] at counted
      exact counted
    · rw [pc] at counted
      exact counted
  | handle =>
    obtain ⟨cqe, pc, rfl⟩ := step_handle stepped
    rw [pc] at counted
    exact handle_counted counted
  | command buffer returns => cases loops
  | prompt =>
    obtain ⟨cqe, pc, rfl⟩ := step_prompt stepped
    rw [pc] at counted
    cases createConsolePrompt g s.sub with
    | none => trivial
    | some sub => exact counted
  | advance =>
    obtain ⟨pc, rfl⟩ := step_advance stepped
    rw [pc] at counted
    exact counted
  | consume =>
    obtain ⟨-, rfl⟩ := step_consume stepped
    exact counted
  | complete i res flags data =>
    obtain ⟨op, -, -, rfl⟩ := step_complete stepped
    exact counted

/-- Once the process has ended only the kernel goes on. -/
theorem step_hasEnded (ended : hasEnded s.pc = true) (loops : isCommand a = false)
    (stepped : EventLoop.step g s a = some s') :
    ∃ i op res flags data, s.inflight[i]? = some op ∧
      (!blocked s.inflight i && mayComplete op res data) = true ∧
      a = .complete i res flags data ∧ s' = complete g s i op res flags data := by
  have pc : s.pc = .exited ∨ s.pc = .fault := by
    revert ended
    cases s.pc <;> simp [hasEnded]
  cases a with
  | complete i res flags data =>
    obtain ⟨op, found, may, same⟩ := step_complete stepped
    exact ⟨i, op, res, flags, data, found, may, rfl, same⟩
  | command buffer returns => cases loops
  | _ => rcases pc with pc | pc <;> simp [EventLoop.step, pc] at stepped

end Loop

section Steps
variable {g : Globals} {bits : Nat} {env : Env} {s s' : System}

/-- A child that returns from its command was refused its `execveat`. -/
theorem child_returns (ran : runLine env buffer replies = (.ok (), w))
    (child : w.asked.head?.any inChild = true) : ExecFailed w.asked := by
  obtain ⟨new, asked, fell⟩ := processCommand_ends env 0 _ _ _ ran
  rw [List.nil_append] at asked
  obtain ⟨e, first, inside⟩ := (Option.any_eq_true _ _).mp child
  rw [asked] at first ⊢
  exact fell ⟨e, List.mem_of_mem_head? first, inside⟩

/-- A command that returns, seen from the loop. -/
theorem command_returns (large : 3 ≤ 2 ^ bits) (loop : EventLoop.State) (pc : loop.pc = .command cqe)
    (tracks : ∃ t, Tracks g bits loop t) (length : buffer.length = loop.buffer.length) :
    ∃ t, Tracks g bits { loop with pc := .prompt cqe, buffer := buffer } t := by
  obtain ⟨t, tracks⟩ := tracks
  have stepped : EventLoop.step g loop (.command buffer true) =
      some { loop with pc := .prompt cqe, buffer := buffer } := by
    simp only [EventLoop.step, pc, length, if_true]
  obtain ⟨-, t', -, tracks⟩ := step_tracks large tracks stepped
  exact ⟨t', tracks⟩

/-- Kernel steps while a parent waits. -/
theorem Frozen.complete (large : 3 ≤ 2 ^ bits) (frozen : Frozen g bits s p)
    (found : s.loop.inflight[i]? = some op)
    (may : (!blocked s.loop.inflight i && mayComplete op res data) = true) :
    Frozen g bits { s with loop := EventLoop.complete g s.loop i op res flags data } p := by
  obtain ⟨t, tracks⟩ := frozen.tracks
  have stepped : EventLoop.step g (suspended s.loop p) (.complete i res flags data) =
      some (EventLoop.complete g (suspended s.loop p) i op res flags data) := by
    simp only [EventLoop.step, suspended, found, may, if_true]
  obtain ⟨-, t', -, represents, inv⟩ := step_tracks large tracks stepped
  refine ⟨frozen.ended, frozen.uring, frozen.held, frozen.atClone, frozen.counted, t', ?_, inv⟩
  exact ⟨represents.phase, represents.sub, represents.comp, represents.inflight,
    tracks.1.buffer, represents.pointer, represents.history, represents.blocks⟩

theorem loop_isolated (large : 3 ≤ 2 ^ bits) (isolated : Isolated g bits s)
    (stepped : step env g s (.loop a) = some s') : Isolated g bits s' := by
  obtain ⟨loops, after, inner, rfl⟩ := step_loop stepped
  cases isolated with
  | running alone counted tracks =>
    obtain ⟨t, tracks⟩ := tracks
    obtain ⟨-, t', -, tracks⟩ := step_tracks large tracks inner
    exact .running alone (step_counted counted loops inner) ⟨t', tracks⟩
  | waiting single frozen =>
    obtain ⟨i, op, res, flags, data, found, may, rfl, rfl⟩ := step_hasEnded frozen.ended loops inner
    obtain ⟨ended, uring, held, atClone, counted, tracks⟩ := frozen.complete large found may
    exact .waiting single ⟨ended, uring, held, atClone, counted, tracks⟩
  | ended alone ended =>
    obtain ⟨i, op, res, flags, data, found, may, rfl, rfl⟩ := step_hasEnded ended loops inner
    exact .ended alone ended

/-- Only a process that is running a command can be at its call. -/
theorem Isolated.commanding (isolated : Isolated g bits s) (pc : s.loop.pc = .command cqe) :
    s.parents = [] ∧ Counted s.loop s.handled ∧ ∃ t, Tracks g bits s.loop t := by
  cases isolated with
  | running alone counted tracks => exact ⟨alone, counted, tracks⟩
  | waiting single frozen =>
    have ended := frozen.ended
    rw [pc] at ended
    cases ended
  | ended alone ended =>
    rw [pc] at ended
    cases ended

theorem hasEnded_afterCommand (cqe : UInt32) (stop : Stop) :
    hasEnded (afterCommand cqe (.error stop)) = true := by
  cases stop <;> rfl

theorem commanded_isolated (large : 3 ≤ 2 ^ bits) (alone : s.parents = [])
    (pc : s.loop.pc = .command cqe) (counted : Counted s.loop s.handled)
    (tracks : ∃ t, Tracks g bits s.loop t) (length : out.2.state.length = s.loop.buffer.length) :
    Isolated g bits (s.commanded cqe out) := by
  obtain ⟨outcome, w⟩ := out
  cases outcome with
  | error stop => exact .ended alone (hasEnded_afterCommand cqe stop)
  | ok _ =>
    refine .running alone ?_ (command_returns large s.loop pc tracks length)
    rw [Counted, pc] at counted
    exact counted

theorem command_isolated (large : 3 ≤ 2 ^ bits) (isolated : Isolated g bits s)
    (stepped : step env g s (.command replies) = some s') : Isolated g bits s' := by
  obtain ⟨cqe, pc, rfl⟩ := step_command stepped
  obtain ⟨alone, counted, tracks⟩ := isolated.commanding pc
  exact commanded_isolated large alone pc counted tracks (runLine_length _ _ _)

theorem suspended_self {loop : EventLoop.State} (pc : loop.pc = .command cqe) :
    suspended { loop with pc := pc', buffer := buffer }
      ⟨cqe, pid, uring, held, loop.buffer, atClone⟩ = loop := by
  rw [suspended, ← pc]

/-- The child ends in its command, so its parent finds what it left. -/
theorem suspended_isolated (alone : s.parents = []) (pc : s.loop.pc = .command cqe)
    (counted : Counted s.loop s.handled) (tracks : ∃ t, Tracks g bits s.loop t)
    (child : out.2.asked.head?.any inChild = true)
    (launched : ∀ e ∈ ((s.suspend cqe pid).commanded cqe out).asked, execFailed e = false)
    (ran : out = runLine env buffer replies) :
    Isolated g bits ((s.suspend cqe pid).commanded cqe out) := by
  obtain ⟨outcome, w⟩ := out
  cases outcome with
  | error stop =>
    refine .waiting (by rw [System.commanded, System.suspend, alone])
      ⟨hasEnded_afterCommand cqe stop, rfl, rfl, rfl, ?_, ?_⟩
    · exact (suspended_self pc).symm ▸ counted
    · exact (suspended_self pc).symm ▸ tracks
  | ok _ =>
    obtain ⟨e, member, failed⟩ := child_returns ran.symm child
    cases (launched e (List.mem_append_right _ member)).symm.trans failed

theorem clone_isolated (isolated : Isolated g bits s)
    (launched : ∀ e ∈ s'.asked, execFailed e = false)
    (stepped : step env g s (.clone pid replies) = some s') : Isolated g bits s' := by
  obtain ⟨cqe, pc, child, rfl⟩ := step_clone stepped
  obtain ⟨alone, counted, tracks⟩ := isolated.commanding pc
  exact suspended_isolated alone pc counted tracks child launched rfl

theorem resume_isolated (large : 3 ≤ 2 ^ bits) (isolated : Isolated g bits s)
    (stepped : step env g s (.resume replies) = some s') : Isolated g bits s' := by
  obtain ⟨p, rest, parents, -, rfl⟩ := step_resume stepped
  cases isolated with
  | running alone => cases alone.symm.trans parents
  | ended alone => cases alone.symm.trans parents
  | waiting single frozen =>
    cases single.symm.trans parents
    have sub : { s.loop.sub with uring := p.uring, held := p.held } = s.loop.sub := by
      rw [← frozen.uring, ← frozen.held]
    have same : s.restore p [] = { s with
        loop := { suspended s.loop p with pc := s.loop.pc, buffer := s.loop.buffer }
        parents := [] } := by
      rw [System.restore, sub, suspended]
    rw [same]
    exact commanded_isolated (s := { s with loop := suspended s.loop p, parents := [] }) large
      rfl rfl frozen.counted frozen.tracks (runLine_length _ _ _)

theorem step_asked (stepped : step env g s a = some s') : s.asked ⊆ s'.asked := by
  cases a with
  | loop a =>
    obtain ⟨-, after, -, rfl⟩ := step_loop stepped
    exact List.Subset.refl _
  | command replies =>
    obtain ⟨cqe, -, rfl⟩ := step_command stepped
    exact List.subset_append_left _ _
  | clone pid replies =>
    obtain ⟨cqe, -, -, rfl⟩ := step_clone stepped
    exact List.subset_append_left _ _
  | resume replies =>
    obtain ⟨p, rest, -, -, rfl⟩ := step_resume stepped
    exact List.subset_append_left _ _

theorem step_isolated (large : 3 ≤ 2 ^ bits) (isolated : Isolated g bits s)
    (launched : ∀ e ∈ s'.asked, execFailed e = false) (stepped : step env g s a = some s') :
    Isolated g bits s' := by
  cases a with
  | loop a => exact loop_isolated large isolated stepped
  | command replies => exact command_isolated large isolated stepped
  | clone pid replies => exact clone_isolated isolated launched stepped
  | resume replies => exact resume_isolated large isolated stepped

end Steps

theorem run_isolated (small : bits ≤ 31) (large : 3 ≤ 2 ^ bits) (sqArray : UInt32 → UInt32)
    (cqes : UInt32 → IoUringCqe)
    (ran : Transition.run (step env g) (start bits sqArray cqes) acts = some s)
    (launched : ∀ e ∈ s.asked, execFailed e = false) : Isolated g bits s := by
  refine Transition.run_invariant
    (P := fun s => (∀ e ∈ s.asked, execFailed e = false) → Isolated g bits s) ?_ ?_ ran launched
  · intro s a s' isolated stepped launched
    refine step_isolated large (isolated fun e member => ?_) launched stepped
    exact launched e (step_asked stepped member)
  · intro _
    exact .running rfl rfl ⟨_, start_tracks small sqArray cqes⟩

/-- As long as no `execveat` fails, a process that waits for its child finds in the rings
what it left there, its private counter agrees with the published tail, and at every
`uring_wait` exactly one completion has been retired for each event handled. -/
theorem children_leave_rings (small : bits ≤ 16) (large : 3 ≤ 2 ^ bits)
    (sqArray : UInt32 → UInt32) (cqes : UInt32 → IoUringCqe)
    (ran : Transition.run (step env g) (start bits sqArray cqes) acts = some s)
    (launched : ∀ e ∈ s.asked, execFailed e = false) :
    (∀ p ∈ s.parents, shared s.loop = p.atClone ∧ p.uring.sqListHead = s.loop.sub.sq.sqTail) ∧
    (s.loop.pc = .wait →
      s.loop.comp.retired = s.handled ∧ s.loop.comp.cq.cqHead = UInt32.ofNat s.handled) := by
  have isolated := run_isolated (by omega) large sqArray cqes ran launched
  constructor
  · intro p member
    cases isolated with
    | running alone => rw [alone] at member; cases member
    | ended alone => rw [alone] at member; cases member
    | waiting single frozen =>
      rw [single] at member
      cases List.mem_singleton.mp member
      obtain ⟨t, represents, -⟩ := frozen.tracks
      have inv : Submission.Inv 4 s.loop.sub := represents.sub.inv
      exact ⟨frozen.atClone, by rw [← frozen.uring, inv.sqListHead, inv.sqTail]⟩
  · intro pc
    cases isolated with
    | running _ counted tracks =>
      rw [Counted, pc] at counted
      obtain ⟨t, represents, -⟩ := tracks
      exact ⟨counted, counted ▸ represents.comp.inv.cqHead⟩
    | waiting _ frozen =>
      have ended := frozen.ended
      rw [pc] at ended
      cases ended
    | ended _ ended =>
      rw [pc] at ended
      cases ended

/-- From the boot to the command `l`, which is one of busybox. -/
def firstLine : List Action :=
  [.loop (.init true true), .loop .enter, .loop .consume, .loop .consume, .loop .consume,
    .loop (.complete 0 9 0 []), .loop (.complete 0 2 0 [108, 10]), .loop (.enterReturn 3),
    .loop .result, .loop .handle, .loop .advance, .loop .enter, .loop (.enterReturn 0),
    .loop .result, .loop .handle]

def reply (res : Int) : Reply := ⟨res, [], []⟩

/-- The child of a command after its `clone3`: one console, then what `execveat` says. -/
def childReplies (exec : List Reply) : List Reply :=
  [reply 0, reply 0, reply 1, reply 2, reply 0] ++ exec

/-- A small machine, run through `firstLine` and what follows. -/
def afterFirstLine (acts : List Action) : Option System :=
  Transition.run (step ⟨[], [], []⟩ ⟨3, 100, 200, 300, by decide⟩)
    (start 5 (fun _ => 0) (fun _ => ⟨0, 0, 0⟩)) (firstLine ++ acts)

/-- A child that was replaced by busybox. -/
theorem children_leave_rings_busybox :
    ∃ s p, afterFirstLine [.clone 7 (childReplies [reply 0])] = some s ∧ s.parents = [p] ∧
      hasEnded s.loop.pc = true ∧ shared s.loop = p.atClone ∧
      p.uring.sqListHead = s.loop.sub.sq.sqTail := by
  have facts : ((afterFirstLine [.clone 7 (childReplies [reply 0])]).map fun s =>
      (s.parents.length, hasEnded s.loop.pc, s.asked.all fun e => !execFailed e)) =
      some (1, true, true) := by decide +kernel
  obtain ⟨s, ran, same⟩ := Option.map_eq_some_iff.mp facts
  simp only [Prod.mk.injEq, List.all_eq_true, Bool.not_eq_eq_eq_not, Bool.not_true] at same
  obtain ⟨one, ended, launched⟩ := same
  obtain ⟨p, single⟩ := List.length_eq_one_iff.mp one
  have kept := (children_leave_rings (by decide) (by decide) _ _ ran launched).1 p
    (single ▸ List.mem_singleton.mpr rfl)
  exact ⟨s, p, ran, single, ended, kept⟩

/-- There is no such program: the child goes on in the event loop until its next system
call fails, and its parent finds the rings moved. Both retire the one completion. -/
theorem child_moves_rings :
    (∃ s p, afterFirstLine [.clone 7 (childReplies [reply (-2), reply 18, reply 2, reply 2, reply 1]),
        .loop .prompt, .loop .advance, .loop .enter, .loop (.enterReturn (-9))] = some s ∧
      s.parents = [p] ∧ hasEnded s.loop.pc = true ∧ p.atClone.sqTail = 3 ∧ s.loop.sub.sq.sqTail = 5 ∧
      p.uring.sqListHead = 3 ∧ p.atClone.cqHead = 1 ∧ s.loop.comp.cq.cqHead = 2) ∧
    ∃ s, afterFirstLine [.clone 7 (childReplies [reply (-2), reply 18, reply 2, reply 2, reply 1]),
        .loop .prompt, .loop .advance, .loop .enter, .loop (.enterReturn (-9)),
        .resume [reply 0, reply 27, reply 1, reply 1], .loop .prompt, .loop .advance] = some s ∧
      s.loop.pc = .wait ∧ s.loop.comp.retired = 3 ∧ s.handled = 2 := by
  constructor
  · have facts : ((afterFirstLine
        [.clone 7 (childReplies [reply (-2), reply 18, reply 2, reply 2, reply 1]),
          .loop .prompt, .loop .advance, .loop .enter, .loop (.enterReturn (-9))]).map fun s =>
        ((hasEnded s.loop.pc, s.loop.sub.sq.sqTail, s.loop.comp.cq.cqHead), s.parents.map fun p =>
          (p.atClone.sqTail, p.uring.sqListHead, p.atClone.cqHead))) =
        some ((true, 5, 2), [(3, 3, 1)]) := by decide +kernel
    obtain ⟨s, ran, same⟩ := Option.map_eq_some_iff.mp facts
    simp only [Prod.mk.injEq] at same
    obtain ⟨⟨ended, sqTail, cqHead⟩, parents⟩ := same
    obtain ⟨p, single, before⟩ := List.map_eq_singleton_iff.mp parents
    simp only [Prod.mk.injEq] at before
    exact ⟨s, p, ran, single, ended, before.1, sqTail, before.2.1, before.2.2, cqHead⟩
  · have facts : ((afterFirstLine
        [.clone 7 (childReplies [reply (-2), reply 18, reply 2, reply 2, reply 1]),
          .loop .prompt, .loop .advance, .loop .enter, .loop (.enterReturn (-9)),
          .resume [reply 0, reply 27, reply 1, reply 1], .loop .prompt, .loop .advance]).map
        fun s => (s.loop.pc, s.loop.comp.retired, s.handled)) = some (.wait, 3, 2) := by
      decide +kernel
    obtain ⟨s, ran, same⟩ := Option.map_eq_some_iff.mp facts
    simp only [Prod.mk.injEq] at same
    exact ⟨s, ran, same⟩

end MinLinux.Init.Spawn
