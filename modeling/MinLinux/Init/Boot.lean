import MinLinux.Command.System
import MinLinux.Uring.Mapping
import MinLinux.Init.Requests

/-! From the first instruction of init to its event loop. `start` opens the console,
`uring_init` sets up the rings and `init` submits the first requests; every call but
`umask` is checked. -/
namespace MinLinux.Init.Boot
open Uring Command

/-- The system calls before the loop; `call` are those that commands make as well. -/
inductive Call where
  | call (call : Command.Call)
  | umask (mask : Nat)
  | mkdirat (path : List UInt8) (mode : Nat)
  | mount (target fstype : List UInt8) (flags : Nat)
  | ioUringSetup (entries : UInt32)
  | mmap (length : UInt64) (fd : Int) (offset : Nat)
  | sigprocmask (set : UInt64)
  | signalfd4 (fd : Int) (mask : UInt64) (flags : Nat)
  | socket (domain type protocol : Nat)

/-- `params` and `features` are what `io_uring_setup` filled in. -/
structure Reply where
  res : Int
  params : IoUringParams
  features : UInt32

abbrev World := Dialog.World Call Reply (Submission.State IoUringSqe)
abbrev Event := Call × Reply
abbrev Proc (α : Type) := Dialog Call Reply (Submission.State IoUringSqe) Stop α

def STDERR : Int := 2
def MS_RDONLY : Nat := 1
def MS_NOEXEC : Nat := 8
def S_IRWXUGO : Nat := 0o777
def IORING_FEAT_SINGLE_MMAP : UInt32 := 1
def IORING_OFF_SQ_RING : Nat := 0
def IORING_OFF_SQES : Nat := 0x10000000
def AF_PACKET : Nat := 17
def SOCK_DGRAM : Nat := 2
def ETH_P_ALL : Nat := 3

/-- Every signal, in `start` and in `init`. The kernel leaves SIGKILL and SIGSTOP out of the
signals it blocks and of those it has read. -/
def allsignals : UInt64 := ~~~ 0

def bswap16 (x : Nat) : Nat := x / 256 % 256 + x % 256 * 256

/-- The expansions of `__FILE__`, and the bytes found at the place of an object that is gone. -/
structure Sources where
  initC : List UInt8
  uringCtlC : List UInt8
  stale : List UInt8

def syscall (call : Call) : Proc Reply := Dialog.ask .starved call

def write (fd : Int) (bytes : List UInt8) : Call := .call (.write fd bytes)

def syscheck (file stale : List UInt8) : String → Call → Proc Reply :=
  Macro.syscheck write Reply.res file stale

/-- What `uring_init` returns, with the addresses of the mappings. -/
structure Queue where
  ringfd : Int
  mmapRing : Int
  mmapSqes : Int
  mapping : Mapping

/-- Without the single mapping of both rings there is no queue. -/
def uringInit (file stale : List UInt8) (size : UInt32) : Proc Queue := do
  let p ← syscall (.ioUringSetup size)
  if p.res < 0 then Dialog.stop (.exited 1)
  else if p.features &&& IORING_FEAT_SINGLE_MMAP = 0 then Dialog.stop (.exited 1)
  else
    let mapping := Uring.uringInit p.params
    let ring ← syscheck file stale "32" (.mmap mapping.mmapRingSize p.res IORING_OFF_SQ_RING)
    let sqes ← syscheck file stale "56" (.mmap mapping.mmapSqesSize p.res IORING_OFF_SQES)
    let s ← Dialog.get
    Dialog.put { s with uring := ⟨0, 0⟩ }
    pure ⟨p.res, ring.res, sqes.res, mapping⟩

/-- The functions that submit requests; a NULL entry faults. -/
def submits (f : Submission.State IoUringSqe → Option (Submission.State IoUringSqe)) :
    Proc Unit := do
  let s ← Dialog.get
  match f s with
  | none => Dialog.stop .fault
  | some s => Dialog.put s

/-- `init`. The descriptor of the signals is a global. -/
def init (file stale : List UInt8) (g : Globals) : Proc Globals := do
  let sigfd ← syscheck file stale "107" (.signalfd4 (-1) allsignals 0)
  let g := { g with sigfd := Int32.ofInt sigfd.res }
  submits (createConsolePrompt g)
  submits (submitSigListen g)
  pure g

/-- The file systems and the console. -/
def openConsole (file stale : List UInt8) : Proc Unit := do
  let _ ← syscall (.umask 0)
  let _ ← syscheck file stale "46" (.mkdirat (ascii "/proc") S_IRWXUGO)
  let _ ← syscheck file stale "47" (.mkdirat (ascii "/dev") S_IRWXUGO)
  let _ ← syscheck file stale "48" (.mkdirat (ascii "/sys") S_IRWXUGO)
  let _ ← syscheck file stale "50" (.mount (ascii "/proc") (ascii "proc") MS_NOEXEC)
  let _ ← syscheck file stale "51" (.mount (ascii "/sys") (ascii "sysfs") (MS_NOEXEC ||| MS_RDONLY))
  let _ ← syscheck file stale "52" (.mount (ascii "/dev") (ascii "devtmpfs") MS_NOEXEC)
  let _ ← syscheck file stale "55" (.call (.openat (ascii "/dev/console") O_RDONLY))
  let stdout ← syscheck file stale "56" (.call (.openat (ascii "/dev/console") (O_APPEND ||| O_WRONLY)))
  let _ ← syscheck file stale "57" (.call (.dup3 stdout.res STDERR))
  pure ()

/-- Only the most urgent messages of the kernel go to the console. -/
def quietKernel (file stale : List UInt8) : Proc Unit := do
  let printkfd ← syscheck file stale "59" (.call (.openat (ascii "/proc/sys/kernel/printk") O_WRONLY))
  let _ ← syscheck file stale "60" (.call (.write printkfd.res (ascii "0")))
  let _ ← syscheck file stale "61" (.call (.close printkfd.res))
  pure ()

/-- `start` up to its loop. -/
def start (files : Sources) (g : Globals) : Proc (Queue × Globals) := do
  openConsole files.initC files.stale
  quietKernel files.initC files.stale
  let uring ← uringInit files.uringCtlC files.stale 16
  let _ ← syscheck files.initC files.stale "66" (.sigprocmask allsignals)
  let g ← init files.initC files.stale g
  let _ ← syscheck files.initC files.stale "76" (.socket AF_PACKET SOCK_DGRAM (bswap16 ETH_P_ALL))
  pure (uring, g)

end MinLinux.Init.Boot
