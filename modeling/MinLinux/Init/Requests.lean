import MinLinux.Uring.Submission

/-! The three requests of init/init.c and the functions that submit them. A
submission writes only the fields its source function assigns, over whatever the
recycled entry held before. -/
namespace MinLinux.Init
open Uring

/-- `struct io_uring_sqe`, with each union under the member a read or write uses. -/
structure IoUringSqe where
  opcode : UInt8
  flags : UInt8
  ioprio : UInt16
  fd : Int32
  off : UInt64
  addr : UInt64
  len : UInt32
  rwFlags : UInt32
  userData : UInt64
  bufIndex : UInt16
  personality : UInt16
  spliceFdIn : Int32
  pad2 : UInt64 × UInt64
deriving DecidableEq

def IoUringSqe.zero : IoUringSqe := ⟨0, 0, 0, 0, 0, 0, 0, 0, 0, 0, 0, 0, (0, 0)⟩

structure IoUringCqe where
  userData : UInt64
  res : Int32
  flags : UInt32
deriving DecidableEq

def IORING_OP_READ : UInt8 := 22
def IORING_OP_WRITE : UInt8 := 23
def IOSQE_IO_LINK : UInt8 := 4

def STDIN : Int32 := 0
def STDOUT : Int32 := 1

def EVENT_CONSOLE_READ : UInt64 := 0
def EVENT_SIGNAL : UInt64 := 1
def EVENT_OTHER : UInt64 := 2

/-- `sizeof(buffer)`, `sizeof(struct signalfd_siginfo)` and `strlen("Command: ")`. -/
def bufferSize : UInt32 := 1024
def siginfoSize : UInt32 := 128
def promptLength : UInt32 := 9

/-- The descriptor `signalfd` returned and the addresses of the objects requests
name. Distinct objects have distinct addresses. -/
structure Globals where
  sigfd : Int32
  buffer : UInt64
  siginfo : UInt64
  prompt : UInt64
  distinct : buffer ≠ siginfo

/-- Takes a new entry and stores to it; `none` is a store through NULL. The ghost
history records the entry as the kernel will see it. -/
def submit (write : α → α) (s : Submission.State α) : Option (Submission.State α) :=
  match uringNewSubmission s.uring s.sq with
  | (none, _) => none
  | (some sqe, uring) =>
      some { s with
        uring := uring
        sq := { s.sq with sqes := Function.update s.sq.sqes sqe (write (s.sq.sqes sqe)) }
        held := s.held ++ [sqe]
        accepted := s.accepted ++ [some (write (s.sq.sqes sqe))] }

/-- The assignments of `submit_sig_listen`. -/
def writeSignal (g : Globals) (sqe : IoUringSqe) : IoUringSqe :=
  { sqe with
    opcode := IORING_OP_READ
    fd := g.sigfd
    addr := g.siginfo
    len := siginfoSize
    flags := 0
    ioprio := 0
    userData := EVENT_SIGNAL }

/-- The first half of `create_console_prompt`. -/
def writePrompt (g : Globals) (sqe : IoUringSqe) : IoUringSqe :=
  { sqe with
    opcode := IORING_OP_WRITE
    fd := STDOUT
    addr := g.prompt
    len := promptLength
    flags := IOSQE_IO_LINK
    ioprio := 0
    userData := EVENT_OTHER }

/-- The second half of `create_console_prompt`. -/
def writeConsole (g : Globals) (sqe : IoUringSqe) : IoUringSqe :=
  { sqe with
    opcode := IORING_OP_READ
    fd := STDIN
    addr := g.buffer
    len := bufferSize
    flags := 0
    ioprio := 0
    userData := EVENT_CONSOLE_READ }

def submitSigListen (g : Globals) (s : Submission.State IoUringSqe) :
    Option (Submission.State IoUringSqe) :=
  submit (writeSignal g) s

def createConsolePrompt (g : Globals) (s : Submission.State IoUringSqe) :
    Option (Submission.State IoUringSqe) :=
  (submit (writePrompt g) s).bind (submit (writeConsole g))

section Submit
variable {α : Type} {s t : Submission.State α} {bits : Nat}

/-- A submission is a reservation followed at once by the store that fills it. -/
theorem submit_eq (inv : Submission.Inv bits s) (room : s.fifo.pending < 2 ^ bits)
    (write : α → α) :
    submit write s = some (Submission.fill (Submission.newSubmission s) s.held.length
      (Ring.slot s.sq.sqMask s.accepted.length)
      (write (s.sq.sqes (Ring.slot s.sq.sqMask s.accepted.length)))) := by
  have split := inv.published_add_held
  have index : (s.accepted ++ [none]).length -
      (s.held ++ [Ring.slot s.sq.sqMask s.accepted.length]).length + s.held.length =
      s.accepted.length := by
    simp only [List.length_append, List.length_singleton, Nat.add_sub_add_right]
    exact split
  simp only [submit, inv.newSubmission_eq, if_pos room, inv.newSubmission_accepts room,
    Submission.fill, Submission.State.published, index, List.set_append_right _ _ (Nat.le_refl _),
    Nat.sub_self, List.set_cons_zero]

/-- What a submission leaves behind, in terms of the entry `cell` it recycles. -/
structure Submitted (bits : Nat) (write : α → α) (s t : Submission.State α) (cell : UInt32) :
    Prop where
  inv : Submission.Inv bits t
  accepted : t.accepted = s.accepted ++ [some (write (s.sq.sqes cell))]
  sqes : t.sq.sqes = Function.update s.sq.sqes cell (write (s.sq.sqes cell))
  consumed : t.consumed = s.consumed
  sqTail : t.sq.sqTail = s.sq.sqTail
  sqListHead : t.uring.sqListHead = s.uring.sqListHead

theorem submit_spec (inv : Submission.Inv bits s) (room : s.fifo.pending < 2 ^ bits)
    (write : α → α) : ∃ t cell, submit write s = some t ∧ Submitted bits write s t cell := by
  have equal := submit_eq inv room write
  have reserved := inv.newSubmission_accepts room
  have pointer : (Submission.newSubmission s).held[s.held.length]? =
      some (Ring.slot s.sq.sqMask s.accepted.length) := by
    rw [reserved]
    simp
  have split := inv.published_add_held
  have filled := Submission.fill_inv (Submission.newSubmission_inv inv) pointer
    (write (s.sq.sqes (Ring.slot s.sq.sqMask s.accepted.length)))
  refine ⟨_, Ring.slot s.sq.sqMask s.accepted.length, equal, filled, ?_, ?_, ?_, ?_, ?_⟩
  · have index : (Submission.newSubmission s).published + s.held.length = s.accepted.length := by
      rw [reserved]
      simp only [Submission.State.published, List.length_append, List.length_singleton,
        Nat.add_sub_add_right]
      exact split
    simp only [Submission.fill, index]
    rw [reserved]
    simp only [List.set_append_right _ _ (Nat.le_refl _), Nat.sub_self, List.set_cons_zero]
  all_goals rw [reserved]; rfl

end Submit
end MinLinux.Init
