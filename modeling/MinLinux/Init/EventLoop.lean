import MinLinux.Uring.Completion
import MinLinux.Init.Requests

/-! The event loop of init/init.c together with the kernel it drives. The program
runs between kernel steps: the kernel consumes submissions while `io_uring_enter`
is running and posts completions at any time. `process_command` is one arbitrary
step here that leaves both rings alone, and so are its children taken to: one that goes
on in the loop after a failed `execveat` does not, and belongs to `Spawn`. -/
namespace MinLinux.Init.EventLoop
open Uring

/-- Where the program stands. A `cqe` is the completion pointer being handled. -/
inductive Pc where
  | start
  | wait
  | entering
  | result
  | handle (cqe : UInt32)
  | command (cqe : UInt32)
  | prompt (cqe : UInt32)
  | advance
  | exited
  | fault
deriving DecidableEq

/-- An operation the kernel has consumed and not completed. -/
structure Op where
  sqe : IoUringSqe
  canceled : Bool
deriving DecidableEq

/-- `cancelNext` is the fate of the next consumed entry when the write it is
linked to has already failed. `completed` remembers the entry behind each posted
completion, `calls` which function made which entries. -/
structure State where
  pc : Pc
  sub : Submission.State IoUringSqe
  comp : Completion.Queue IoUringCqe
  buffer : List UInt8
  inflight : List Op
  cancelNext : Bool
  completed : List IoUringSqe
  calls : List (List IoUringSqe)

inductive Action where
  | init (signalfdOk socketOk : Bool)
  | enter
  | enterReturn (res : Int32)
  | result
  | handle
  | command (buffer : List UInt8) (returns : Bool)
  | prompt
  | advance
  | consume
  | complete (index : Nat) (res : Int32) (flags : UInt32) (data : List UInt8)

def linked (sqe : IoUringSqe) : Bool := sqe.flags &&& IOSQE_IO_LINK != 0

/-- The entries accepted and not yet consumed, oldest first. -/
def State.queued (s : State) : List IoUringSqe :=
  (s.sub.accepted.drop s.sub.consumed.length).reduceOption

/-- The operations whose completions are posted and not yet retired. -/
def State.unretired (s : State) : List IoUringSqe := s.completed.drop s.comp.retired

/-- The entries `after` accepted beyond those of `before`. -/
def newEntries (before after : Submission.State IoUringSqe) : List IoUringSqe :=
  (after.accepted.drop before.accepted.length).reduceOption

/-- Continues with `pc` after a call that submits requests; a NULL entry faults. -/
def State.submitted (s : State) (pc : Pc) : Option (Submission.State IoUringSqe) → State
  | none => { s with pc := .fault }
  | some sub => { s with pc := pc, sub := sub, calls := s.calls ++ [newEntries s.sub sub] }

/-- `init`, then the call to `socket` that precedes the loop. -/
def init (g : Globals) (s : State) (signalfdOk socketOk : Bool) : State :=
  if signalfdOk then
    match createConsolePrompt g s.sub with
    | none => { s with pc := .fault }
    | some sub₁ =>
        match submitSigListen g sub₁ with
        | none => { s with pc := .fault }
        | some sub₂ =>
            { s with
              pc := if socketOk then .wait else .exited
              sub := sub₂
              calls := s.calls ++ [newEntries s.sub sub₁, newEntries sub₁ sub₂] }
  else { s with pc := .exited }

/-- `process_input`: end of input and read errors power off; a line without its
newline is not run. -/
def processInput (s : State) (cqe : UInt32) (res : Int32) : State :=
  if 0 < res then
    match s.buffer[(res.toInt - 1).toNat]? with
    | none => { s with pc := .fault }
    | some last =>
        if last = 10 then
          { s with
            pc := .command cqe
            buffer := s.buffer.set (res.toInt - 1).toNat 0 }
        else { s with pc := .prompt cqe }
  else { s with pc := .exited }

/-- The switch of `handle` on `user_data`, read through the completion pointer. -/
def handle (g : Globals) (s : State) (cqe : UInt32) : State :=
  let entry := s.comp.cq.cqes cqe
  if entry.userData = EVENT_CONSOLE_READ then processInput s cqe entry.res
  else if entry.userData = EVENT_SIGNAL then
    s.submitted .advance (submitSigListen g s.sub)
  else if entry.userData = EVENT_OTHER then
    if entry.res < 0 then { s with pc := .exited } else { s with pc := .advance }
  else { s with pc := .advance }

/-- The kernel takes the next entry; what follows a failed linked write is canceled. -/
def consume (s : State) : State :=
  let sub := Submission.consume s.sub
  let sqe := (Submission.consumeEntry s.sub.sq).1
  { s with
    sub := sub
    inflight := s.inflight ++ [⟨sqe, s.cancelNext⟩]
    cancelNext := false }

/-- An operation is held back while the one consumed before it is linked to it. -/
def blocked (inflight : List Op) (i : Nat) : Bool :=
  (inflight.take i).getLast?.any fun op => linked op.sqe

/-- Results a completed operation may have: a canceled one fails, and no transfer
exceeds the requested length. Only a read brings data. -/
def mayComplete (op : Op) (res : Int32) (data : List UInt8) : Bool :=
  (!op.canceled || decide (res < 0)) && decide (res.toInt ≤ op.sqe.len.toNat) &&
    decide (data.length = if op.sqe.opcode = IORING_OP_READ then res.toInt.toNat else 0)

/-- A failed or short linked operation cancels the operation behind it. -/
def complete (g : Globals) (s : State) (i : Nat) (op : Op) (res : Int32) (flags : UInt32)
    (data : List UInt8) : State :=
  let rest := s.inflight.eraseIdx i
  let breaks := linked op.sqe && decide (res.toInt ≠ op.sqe.len.toNat)
  { s with
    comp := s.comp.post ⟨op.sqe.userData, res, flags⟩
    completed := s.completed ++ [op.sqe]
    inflight := if breaks then rest.modify i (fun next => { next with canceled := true }) else rest
    cancelNext := s.cancelNext || (breaks && decide (i = rest.length))
    buffer := if op.sqe.opcode = IORING_OP_READ ∧ op.sqe.addr = g.buffer then
        data ++ s.buffer.drop data.length
      else s.buffer }

def step (g : Globals) (s : State) : Action → Option State
  | .init signalfdOk socketOk =>
      if s.pc = .start then some (init g s signalfdOk socketOk) else none
  | .enter =>
      if s.pc = .wait then some { s with pc := .entering, sub := Submission.wait s.sub 1 } else none
  | .enterReturn res =>
      if s.pc = .entering then
        some (if res < 0 then { s with pc := .exited } else { s with pc := .result })
      else none
  | .result =>
      if s.pc = .result then
        match uringResult s.comp.cq with
        | none => some { s with pc := .wait }
        | some cqe => some { s with pc := .handle cqe }
      else none
  | .handle =>
      match s.pc with
      | .handle cqe => some (handle g s cqe)
      | _ => none
  | .command buffer returns =>
      match s.pc with
      | .command cqe =>
          if buffer.length = s.buffer.length then
            some { s with pc := if returns then .prompt cqe else .exited, buffer := buffer }
          else none
      | _ => none
  | .prompt =>
      match s.pc with
      | .prompt _ => some (s.submitted .advance (createConsolePrompt g s.sub))
      | _ => none
  | .advance =>
      if s.pc = .advance then some { s with pc := .wait, comp := s.comp.advance } else none
  | .consume =>
      if s.pc = .entering ∧ 0 < s.sub.budget ∧ s.sub.sq.sqHead ≠ s.sub.sq.sqTail then
        some (consume s)
      else none
  | .complete i res flags data =>
      match s.inflight[i]? with
      | none => none
      | some op =>
          if !blocked s.inflight i && mayComplete op res data then
            some (complete g s i op res flags data)
          else none

section Inversion
variable {g : Globals} {s s' : State}

theorem step_init (stepped : step g s (.init signalfdOk socketOk) = some s') :
    s.pc = .start ∧ s' = init g s signalfdOk socketOk := by
  simp only [step, Option.ite_none_right_eq_some, Option.some.injEq] at stepped
  exact ⟨stepped.1, stepped.2.symm⟩

theorem step_enter (stepped : step g s .enter = some s') :
    s.pc = .wait ∧ s' = { s with pc := .entering, sub := Submission.wait s.sub 1 } := by
  simp only [step, Option.ite_none_right_eq_some, Option.some.injEq] at stepped
  exact ⟨stepped.1, stepped.2.symm⟩

theorem step_enterReturn (stepped : step g s (.enterReturn res) = some s') :
    s.pc = .entering ∧ s' = if res < 0 then { s with pc := .exited } else { s with pc := .result } := by
  simp only [step, Option.ite_none_right_eq_some, Option.some.injEq] at stepped
  exact ⟨stepped.1, stepped.2.symm⟩

theorem step_result (stepped : step g s .result = some s') :
    s.pc = .result ∧ ((uringResult s.comp.cq = none ∧ s' = { s with pc := .wait }) ∨
      ∃ cqe, uringResult s.comp.cq = some cqe ∧ s' = { s with pc := .handle cqe }) := by
  simp only [step, Option.ite_none_right_eq_some] at stepped
  obtain ⟨pc, stepped⟩ := stepped
  cases found : uringResult s.comp.cq with
  | none =>
    rw [found] at stepped
    exact ⟨pc, .inl ⟨rfl, (Option.some.inj stepped).symm⟩⟩
  | some cqe =>
    rw [found] at stepped
    exact ⟨pc, .inr ⟨cqe, rfl, (Option.some.inj stepped).symm⟩⟩

theorem step_handle (stepped : step g s .handle = some s') :
    ∃ cqe, s.pc = .handle cqe ∧ s' = handle g s cqe := by
  simp only [step] at stepped
  split at stepped
  · rename_i cqe pc
    exact ⟨cqe, pc, (Option.some.inj stepped).symm⟩
  · contradiction

theorem step_command (stepped : step g s (.command buffer returns) = some s') :
    ∃ cqe, s.pc = .command cqe ∧ buffer.length = s.buffer.length ∧
      s' = { s with pc := if returns then .prompt cqe else .exited, buffer := buffer } := by
  simp only [step] at stepped
  split at stepped
  · rename_i cqe pc
    simp only [Option.ite_none_right_eq_some, Option.some.injEq] at stepped
    exact ⟨cqe, pc, stepped.1, stepped.2.symm⟩
  · contradiction

theorem step_prompt (stepped : step g s .prompt = some s') :
    ∃ cqe, s.pc = .prompt cqe ∧ s' = s.submitted .advance (createConsolePrompt g s.sub) := by
  simp only [step] at stepped
  split at stepped
  · rename_i cqe pc
    exact ⟨cqe, pc, (Option.some.inj stepped).symm⟩
  · contradiction

theorem step_advance (stepped : step g s .advance = some s') :
    s.pc = .advance ∧ s' = { s with pc := .wait, comp := s.comp.advance } := by
  simp only [step, Option.ite_none_right_eq_some, Option.some.injEq] at stepped
  exact ⟨stepped.1, stepped.2.symm⟩

theorem step_consume (stepped : step g s .consume = some s') :
    (s.pc = .entering ∧ 0 < s.sub.budget ∧ s.sub.sq.sqHead ≠ s.sub.sq.sqTail) ∧
      s' = consume s := by
  simp only [step, Option.ite_none_right_eq_some, Option.some.injEq] at stepped
  exact ⟨stepped.1, stepped.2.symm⟩

theorem step_complete (stepped : step g s (.complete i res flags data) = some s') :
    ∃ op, s.inflight[i]? = some op ∧ (!blocked s.inflight i && mayComplete op res data) = true ∧
      s' = complete g s i op res flags data := by
  simp only [step] at stepped
  split at stepped
  · contradiction
  · rename_i op found
    simp only [Option.ite_none_right_eq_some, Option.some.injEq] at stepped
    exact ⟨op, found, stepped.1, stepped.2.symm⟩

end Inversion

/-- The state `uring_init(16)` leaves, with the entries the kernel mapped zeroed. -/
def start (bits : Nat) (sqArray : UInt32 → UInt32) (cqes : UInt32 → IoUringCqe) : State where
  pc := .start
  sub := Submission.start 4 sqArray (fun _ => IoUringSqe.zero)
  comp := Completion.Queue.start bits cqes
  buffer := List.replicate 1024 0
  inflight := []
  cancelNext := false
  completed := []
  calls := []

end MinLinux.Init.EventLoop
