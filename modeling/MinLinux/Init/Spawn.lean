import MinLinux.Command.Child
import MinLinux.Init.EventLoop

/-! The event loop as a family of processes. `clone3` with no flags copies the memory of
the process, the two private ring counters included, while both sides keep the same
ring mappings; the parent is blocked in `waitid` until its child has ended. A child
whose `execveat` succeeds has no mappings any more, a child whose `execveat` fails goes
on in the event loop. -/
namespace MinLinux.Init.Spawn
open Uring EventLoop Command

/-- What the user side writes of the rings. -/
structure Shared where
  sqTail : UInt32
  sqArray : UInt32 → UInt32
  sqes : UInt32 → IoUringSqe
  cqHead : UInt32

def shared (s : EventLoop.State) : Shared :=
  ⟨s.sub.sq.sqTail, s.sub.sq.sqArray, s.sub.sq.sqes, s.comp.cq.cqHead⟩

/-- A process blocked in `waitid`, with its private memory as it was when the command
began. `atClone` is what the rings held when `clone3` returned. -/
structure Parent where
  cqe : UInt32
  pid : Int
  uring : UringQueue
  held : List UInt32
  buffer : List UInt8
  atClone : Shared

/-- The process that runs, with the rings and the kernel, and the processes that wait
for it, innermost first. `handled` counts the calls of `handle` and `asked` holds the
system calls of every command so far. -/
structure System where
  loop : EventLoop.State
  parents : List Parent
  handled : Nat
  asked : List Command.Event
  off : Bool

/-- `clone` is a command that makes a process and `replies` what the child is answered
after its `clone3`; `resume` is what the parent is answered once the child has ended. -/
inductive Action where
  | loop (a : EventLoop.Action)
  | command (replies : List Reply)
  | clone (pid : Int) (replies : List Reply)
  | resume (replies : List Reply)

def isCommand : EventLoop.Action → Bool
  | .command _ _ => true
  | _ => false

def isHandle : EventLoop.Action → Bool
  | .handle => true
  | _ => false

/-- `process_input` powers the machine off, whichever process it runs in. -/
def endsInput (s : EventLoop.State) : Bool :=
  match s.pc with
  | .handle cqe =>
      decide ((s.comp.cq.cqes cqe).userData = EVENT_CONSOLE_READ) &&
        decide ((s.comp.cq.cqes cqe).res ≤ 0)
  | _ => false

def poweredOff : Except Stop Unit → Bool
  | .error .poweredOff => true
  | _ => false

def starved : Except Stop Unit → Bool
  | .error .starved => true
  | _ => false

/-- `clone3` has made a process. -/
def cloned : Command.Event → Bool
  | (.clone3 _ _, r) => decide (0 ≤ r.res)
  | _ => false

def hasEnded : Pc → Bool
  | .exited => true
  | .fault => true
  | _ => false

/-- Where `process_command` leaves the process that ran it. -/
def afterCommand (cqe : UInt32) : Except Stop Unit → Pc
  | .ok () => .prompt cqe
  | .error stop => if stop.regular then .exited else .fault

def System.commanded (s : System) (cqe : UInt32) (out : Except Stop Unit × World) : System :=
  { s with
    loop := { s.loop with pc := afterCommand cqe out.1, buffer := out.2.state }
    asked := s.asked ++ out.2.asked
    off := poweredOff out.1 }

/-- The process that runs becomes the child of a copy of itself. -/
def System.suspend (s : System) (cqe : UInt32) (pid : Int) : System :=
  { s with
    parents :=
      ⟨cqe, pid, s.loop.sub.uring, s.loop.sub.held, s.loop.buffer, shared s.loop⟩ :: s.parents }

/-- The private memory of the parent in place of that of the child. -/
def System.restore (s : System) (p : Parent) (rest : List Parent) : System :=
  { s with
    loop := { s.loop with sub := { s.loop.sub with uring := p.uring, held := p.held } }
    parents := rest }

/-- `process_command` on a buffer, as the process sees it that gets these answers. -/
def runLine (env : Env) (buffer : List UInt8) (replies : List Reply) : Except Stop Unit × World :=
  processCommand env 0 ⟨buffer, replies, []⟩

theorem runLine_length (env : Env) (buffer : List UInt8) (replies : List Reply) :
    (runLine env buffer replies).2.state.length = buffer.length :=
  processCommand_length env 0 ⟨buffer, replies, []⟩

def step (env : Env) (g : Globals) (s : System) : Action → Option System
  | .loop a =>
      if s.off || isCommand a then none
      else (EventLoop.step g s.loop a).map fun after =>
        { s with
          loop := after
          handled := if isHandle a then s.handled + 1 else s.handled
          off := isHandle a && endsInput s.loop }
  | .command replies =>
      match s.loop.pc with
      | .command cqe =>
          let out := runLine env s.loop.buffer replies
          if s.off || starved out.1 || out.2.asked.any cloned then none
          else some (s.commanded cqe out)
      | _ => none
  | .clone pid replies =>
      match s.loop.pc with
      | .command cqe =>
          let out := runLine env s.loop.buffer (⟨0, [], []⟩ :: replies)
          if s.off || starved out.1 || decide (pid ≤ 0) || !out.2.asked.head?.any inChild then none
          else some ((s.suspend cqe pid).commanded cqe out)
      | _ => none
  | .resume replies =>
      match s.parents with
      | p :: rest =>
          let out := runLine env p.buffer (⟨p.pid, [], []⟩ :: replies)
          if s.off || starved out.1 || !hasEnded s.loop.pc then none
          else some ((s.restore p rest).commanded p.cqe out)
      | [] => none

section Inversion
variable {env : Env} {g : Globals} {s s' : System}

theorem step_loop (stepped : step env g s (.loop a) = some s') :
    isCommand a = false ∧ ∃ after, EventLoop.step g s.loop a = some after ∧
      s' = { s with
        loop := after
        handled := if isHandle a then s.handled + 1 else s.handled
        off := isHandle a && endsInput s.loop } := by
  simp only [step] at stepped
  split at stepped
  · contradiction
  · rename_i allowed
    obtain ⟨after, inner, same⟩ := Option.map_eq_some_iff.mp stepped
    exact ⟨(by simpa using allowed : s.off = false ∧ isCommand a = false).2, after, inner, same.symm⟩

theorem step_command (stepped : step env g s (.command replies) = some s') :
    ∃ cqe, s.loop.pc = .command cqe ∧ s' = s.commanded cqe (runLine env s.loop.buffer replies) := by
  simp only [step] at stepped
  split at stepped
  · rename_i cqe pc
    simp only [Option.ite_none_left_eq_some, Option.some.injEq] at stepped
    exact ⟨cqe, pc, stepped.2.symm⟩
  · contradiction

theorem step_clone (stepped : step env g s (.clone pid replies) = some s') :
    ∃ cqe, s.loop.pc = .command cqe ∧
      (runLine env s.loop.buffer (⟨0, [], []⟩ :: replies)).2.asked.head?.any inChild = true ∧
      s' = (s.suspend cqe pid).commanded cqe
        (runLine env s.loop.buffer (⟨0, [], []⟩ :: replies)) := by
  simp only [step] at stepped
  split at stepped
  · rename_i cqe pc
    simp only [Option.ite_none_left_eq_some, Option.some.injEq] at stepped
    obtain ⟨allowed, same⟩ := stepped
    refine ⟨cqe, pc, ?_, same.symm⟩
    by_contra parent
    exact allowed (by simp [parent])
  · contradiction

theorem step_resume (stepped : step env g s (.resume replies) = some s') :
    ∃ p rest, s.parents = p :: rest ∧ hasEnded s.loop.pc = true ∧
      s' = (s.restore p rest).commanded p.cqe (runLine env p.buffer (⟨p.pid, [], []⟩ :: replies)) := by
  simp only [step] at stepped
  split at stepped
  · rename_i p rest parents
    simp only [Option.ite_none_left_eq_some, Option.some.injEq] at stepped
    obtain ⟨allowed, same⟩ := stepped
    refine ⟨p, rest, parents, ?_, same.symm⟩
    by_contra running
    exact allowed (by simp [running])
  · contradiction

end Inversion

def start (bits : Nat) (sqArray : UInt32 → UInt32) (cqes : UInt32 → IoUringCqe) : System :=
  ⟨EventLoop.start bits sqArray cqes, [], 0, [], false⟩

end MinLinux.Init.Spawn
