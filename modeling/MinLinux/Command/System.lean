import MinLinux.Dialog
import MinLinux.Util.Decimal

/-! Processes as programs that ask the kernel. The private state of a process is the
memory its command line stands in; every system call is a question, and its result,
with what the kernel stored for the caller, the answer. -/
namespace MinLinux.Command

def ascii (text : String) : List UInt8 := text.toList.map fun c => UInt8.ofNat c.toNat

/-- A system call with its arguments, strings and vectors as the kernel finds them. -/
inductive Call where
  | write (fd : Int) (bytes : List UInt8)
  | read (fd : Int) (count : Nat)
  | openat (path : List UInt8) (flags : Nat)
  | openat2 (path : List UInt8) (flags : Nat)
  | close (fd : Int)
  | closeRange (first last flags : Nat)
  | getdents64 (fd : Int) (count : Nat)
  | clone3 (flags exitSignal : Nat)
  | waitid (pid : Int)
  | dup3 (oldfd newfd : Int)
  | memfdCreate (flags : Nat)
  | fstatat (fd : Int) (path : List UInt8) (flags : Nat)
  | copyFileRange (fdIn fdOut : Int) (len : UInt64)
  | sigprocmask
  | execveat (dirfd : Int) (path : List UInt8) (argv envp : List (List UInt8)) (flags : Nat)
  | clockGettime
  | sysinfo
deriving DecidableEq

/-- `data` are the bytes stored into a buffer of the caller, `fields` the members the
caller reads of a structure the kernel filled in. -/
structure Reply where
  res : Int
  data : List UInt8
  fields : List UInt64
deriving DecidableEq

/-- Ways for a process not to return. `fault` is an access outside of an object, but for two
objects that have a stop of their own: a store behind the vector of a child is an
`overflow`, and a `malformed` batch of directory entries leads out of its buffer. `starved`
is a system call that has not returned yet. -/
inductive Stop where
  | exited (status : UInt16)
  | execed
  | poweredOff
  | fault
  | overflow
  | malformed
  | starved
deriving DecidableEq

/-- Ways to end that no access outside of an object is behind. -/
def Stop.regular : Stop → Bool
  | .fault | .overflow | .malformed => false
  | _ => true

abbrev World := Dialog.World Call Reply (List UInt8)
abbrev Event := Call × Reply
abbrev Proc (α : Type) := Dialog Call Reply (List UInt8) Stop α

def STDOUT : Int := 1
def AT_FDCWD : Int := -100
def AT_EMPTY_PATH : Nat := 0x1000
def O_RDONLY : Nat := 0
def O_WRONLY : Nat := 1
def O_APPEND : Nat := 0x400
def O_DIRECTORY : Nat := 0x10000
def O_NOATIME : Nat := 0x40000
def O_CLOEXEC : Nat := 0x80000
def SIGCHLD : Nat := 17

/-- What the expansion of `__FILE__` and the environment of the process are. `stale` are the
bytes found at the place of an object that is gone; a process reads them once at most, when
`SYSCHECK` ends it. -/
structure Env where
  file : List UInt8
  envp : List (List UInt8)
  stale : List UInt8

/-! The macros of util.h in a program with system calls of type `C` and answers of type `R`. -/
namespace Macro
variable {C R S : Type} (write : Int → List UInt8 → C) (res : R → Int)

/-- `WRITESTR`: the result of the write is not looked at. -/
def writeStr (bytes : List UInt8) : Dialog C R S Stop Unit := do
  let _ ← Dialog.ask .starved (write STDOUT bytes)
  pure ()

/-- `SYSCHECK` of a system call on a line of the source. The number is written through the
pointer that `int_to_str` returns. -/
def syscheck (file stale : List UInt8) (line : String) (call : C) : Dialog C R S Stop R := do
  let reply ← Dialog.ask .starved call
  if res reply < 0 then
    writeStr write (file ++ ascii (":" ++ line ++ " syscall error "))
    let number := Util.intToStr (List.replicate 21 0) (Int64.ofInt (res reply))
    writeStr write ((number.str.string number.val).getD stale)
    writeStr write (ascii "\n")
    Dialog.stop (.exited (UInt16.ofInt (-res reply)))
  else pure reply

end Macro

def syscall (call : Call) : Proc Reply := Dialog.ask .starved call

def writeStr : List UInt8 → Proc Unit := Macro.writeStr .write

def syscheck (env : Env) : String → Call → Proc Reply :=
  Macro.syscheck .write Reply.res env.file env.stale

/-- The string at an offset of an array; `outside` is how running off its end stops. -/
def stringOf (outside : Stop) (array : List UInt8) (p : Nat) : Proc (List UInt8) :=
  match Text.cstring (array.drop p) with
  | none => Dialog.stop outside
  | some s => pure s

/-- No byte that `ltoa` left in its static buffer before is part of the string. -/
def writeInt (value : UInt64) : Proc Unit := do
  let (str, buffer) := Util.ltoa (List.replicate 21 0) value.toInt64
  match str.string buffer with
  | none => Dialog.stop .fault
  | some digits => writeStr digits

/-- `WRITE_ERR` -/
def writeErr (text : List UInt8) (err : Int) : Proc Unit := do
  writeStr text
  writeStr (ascii ": ")
  writeInt (UInt64.ofInt err)
  writeStr (ascii "\n")

/-- A `char *`: into a string literal, or into the memory of the command line. -/
inductive CharPtr where
  | literal (text : List UInt8)
  | line (p : Nat)
deriving DecidableEq

def loadString : CharPtr → Proc (List UInt8)
  | .literal text => pure text
  | .line p => do
      let mem ← Dialog.get
      stringOf .fault mem p

end MinLinux.Command
