import MinLinux.Command.Arguments

/-! The commands of init/command.c and `process_command`, which chooses among them.
Both sides of `clone3` are here: the answer 0 is the child. -/
namespace MinLinux.Command

def cmdTime (env : Env) : Proc Unit := do
  let time ← syscheck env "67" .clockGettime
  writeStr (ascii "Current Time: ")
  writeInt (time.fields.getD 0 0)
  writeStr (ascii " sec ")
  writeInt (time.fields.getD 1 0)
  writeStr (ascii " nsec\n")

/-- The kind of a directory entry is written behind its name. -/
def direntSuffix (dType : UInt8) : List UInt8 :=
  if dType = 4 then ascii "/\n"
  else if dType = 8 then ascii "\n"
  else if dType = 1 then ascii " (fifo)\n"
  else if dType = 2 then ascii " (character)\n"
  else if dType = 6 then ascii " (block)\n"
  else if dType = 10 then ascii " -> ???\n"
  else if dType = 12 then ascii " (socket)\n"
  else ascii "?\n"

def loadByte (outside : Stop) (array : List UInt8) (i : Nat) : Proc UInt8 :=
  match array[i]? with
  | none => Dialog.stop outside
  | some c => pure c

/-- The records of one `getdents64` batch of `count` bytes. The header is an inode
number and an offset of 8 bytes each, then `d_reclen`, `d_type` and `d_name`. -/
def direntLoop (buffer : List UInt8) (count : Int) : Nat → Nat → Proc Unit
  | 0, _ => Dialog.stop .starved
  | fuel + 1, pos =>
      if (pos : Int) < count then do
        let name ← stringOf .malformed buffer (pos + 19)
        let _ ← syscall (.write STDOUT name)
        let dType ← loadByte .malformed buffer (pos + 18)
        writeStr (direntSuffix dType)
        let low ← loadByte .malformed buffer (pos + 16)
        let high ← loadByte .malformed buffer (pos + 17)
        direntLoop buffer count fuel (pos + low.toNat + 256 * high.toNat)
      else pure ()

/-- The bytes of a local array of `size` after the kernel stored `data` at its start. -/
def received (size : Nat) (old data : List UInt8) : List UInt8 :=
  data.take size ++ old.drop data.length

def dirlistLoop (rootdir : Int) : Nat → Proc Unit
  | 0 => Dialog.stop .starved
  | fuel + 1 => do
      let reply ← syscall (.getdents64 rootdir 1024)
      let left ← Dialog.budget
      direntLoop (received 1024 (List.replicate 1024 0) reply.data) reply.res left 0
      if 0 < reply.res then dirlistLoop rootdir fuel else pure ()

def dirlist (path : CharPtr) : Proc Unit := do
  let name ← loadString path
  let rootdir ← syscall (.openat name (O_RDONLY ||| O_NOATIME ||| O_DIRECTORY))
  if rootdir.res < 0 then
    writeStr (ascii "Error opening directory ")
    let name ← loadString path
    writeStr name
    writeStr (ascii ": ")
    writeInt (UInt64.ofInt rootdir.res)
    writeStr (ascii "\n")
  else
    let fuel ← Dialog.budget
    dirlistLoop rootdir.res fuel

def cmdLs (next : Nat) : Proc Unit := do
  match ← findArg next with
  | none => dirlist (.literal (ascii "/"))
  | some dir =>
      let _ ← terminateArg dir
      dirlist (.line dir)

/-- The copy loop of `cmd_cat`; returns the result of the last read. -/
def catLoop (fd : Int) : Nat → List UInt8 → Proc Int
  | 0, _ => Dialog.stop .starved
  | fuel + 1, buffer => do
      let result ← syscall (.read fd 1024)
      let buffer := received 1024 buffer result.data
      if 0 < result.res then
        let written ← syscall (.write STDOUT (buffer.take result.res.toNat))
        if written.res < 0 then writeErr (ascii "Error writing to stdout") written.res
        catLoop fd fuel buffer
      else pure result.res

/-- `cmd_cat` once it has a path. -/
def catFile (path : CharPtr) : Proc Unit := do
  let name ← loadString path
  let fd ← syscall (.openat2 name (O_RDONLY ||| O_NOATIME))
  if fd.res < 0 then writeErr (ascii "Couldn't open file") fd.res
  else
    let fuel ← Dialog.budget
    let result ← catLoop fd.res fuel (List.replicate 1024 0)
    if result < 0 then writeErr (ascii "Error reading file") result

def cmdCat (next : Nat) : Proc Unit := do
  match ← findArg next with
  | none => writeStr (ascii "No file path specified.\n")
  | some path =>
      let _ ← terminateArg path
      catFile (.line path)

def cmdEnv (env : Env) : Proc Unit :=
  env.envp.forM fun entry => do
    writeStr entry
    writeStr (ascii "\n")

def cmdExit : Proc Unit := Dialog.stop .poweredOff

/-- `fields` are `totalram`, `freeram` and `mem_unit`. -/
def cmdUsage (env : Env) : Proc Unit := do
  let info ← syscheck env "128" .sysinfo
  let totalram := info.fields.getD 0 0
  let freeram := info.fields.getD 1 0
  let memUnit := info.fields.getD 2 0
  writeStr (ascii "Memory Used/Total: ")
  writeInt ((totalram - freeram) * memUnit)
  writeStr (ascii "/")
  writeInt (totalram * memUnit)
  writeStr (ascii " bytes\n")

def closeAllFiles : Proc Unit := do
  let _ ← syscall (.closeRange 0 0xFFFFFFFF 0)
  pure ()

/-- `execveat` returns only when it fails. -/
def execveat (dirfd : Int) (path : List UInt8) (args : List Arg) (flags : Nat) : Proc Reply := do
  let argv ← loadArgs args
  let reply ← syscall (.execveat dirfd path argv [] flags)
  if reply.res < 0 then pure reply else Dialog.stop .execed

/-- The descriptors a child gets in place of those it inherited. -/
def openConsole (env : Env) (inLine outLine dupLine : String) : Proc Unit := do
  closeAllFiles
  let _ ← syscheck env inLine (.openat (ascii "/dev/console") O_RDONLY)
  let stdout ← syscheck env outLine (.openat (ascii "/dev/console") (O_APPEND ||| O_WRONLY))
  let _ ← syscheck env dupLine (.dup3 stdout.res 2)
  pure ()

/-- The child of `cmd_memrun` from `close_all_files` on. -/
def execMemrun (env : Env) (path : Nat) (args : List Arg) : Proc Unit := do
  openConsole env "174" "175" "176"
  let memfd ← syscall (.memfdCreate 0)
  let name ← loadString (.line path)
  let infd ← syscheck env "183" (.openat2 name O_CLOEXEC)
  let stats ← syscheck env "187" (.fstatat infd.res [] AT_EMPTY_PATH)
  let _ ← syscheck env "191" (.copyFileRange infd.res memfd.res (stats.fields.getD 0 0))
  let _ ← syscheck env "200" .sigprocmask
  let execres ← execveat memfd.res [] args AT_EMPTY_PATH
  writeErr (ascii "execveat returned ") execres.res

def memrunChild (env : Env) (path next : Nat) : Proc Unit := do
  let args ← storeArg (List.replicate MAX_ARGS .uninit) 0 (.str (.line path))
  let args ← fillArgs (MAX_ARGS - 1) 1 args (some next)
  execMemrun env path args

def memrunParent (env : Env) (tid : Int) : Proc Unit := do
  writeStr (ascii "Forked process ")
  writeInt (UInt64.ofInt tid)
  writeStr (ascii "\n")
  let siginfo ← syscheck env "153" (.waitid tid)
  writeStr (ascii "Child process ")
  writeInt (siginfo.fields.getD 0 0)
  writeStr (ascii " exited with status ")
  writeInt (siginfo.fields.getD 1 0)
  writeStr (ascii "\n")

/-- `cmd_memrun` once it has a path. -/
def memrunFile (env : Env) (path next : Nat) : Proc Unit := do
  let tid ← syscall (.clone3 0 SIGCHLD)
  if 0 < tid.res then memrunParent env tid.res
  else if tid.res = 0 then memrunChild env path next
  else writeErr (ascii "clone3 error") tid.res

def cmdMemrun (env : Env) (next : Nat) : Proc Unit := do
  match ← findArg next with
  | none => writeStr (ascii "No file path specified.\n")
  | some path =>
      let next ← terminateArg path
      memrunFile env path next

/-- The child of `busybox` from `close_all_files` on. -/
def execBusybox (env : Env) (args : List Arg) : Proc Unit := do
  openConsole env "240" "241" "242"
  let _ ← syscheck env "251" .sigprocmask
  let execres ← execveat AT_FDCWD (ascii "/busybox") args 0
  writeErr (ascii "execveat returned ") execres.res

def busyboxChild (env : Env) (command : Nat) (next : Option Nat) : Proc Unit := do
  let args ← storeArg (List.replicate MAX_ARGS .uninit) 0 (.str (.literal (ascii "/busybox")))
  let args ← storeArg args 1 (.str (.line command))
  let args ← fillArgs (MAX_ARGS - 2) 2 args next
  execBusybox env args

def busyboxParent (env : Env) (tid : Int) : Proc Unit := do
  let siginfo ← syscheck env "219" (.waitid tid)
  writeStr (ascii "Busybox exited with status ")
  writeInt (siginfo.fields.getD 1 0)
  writeStr (ascii "\n")

def busybox (env : Env) (command next : Nat) : Proc Unit := do
  let next ← findArg next
  let tid ← syscall (.clone3 0 SIGCHLD)
  if 0 < tid.res then busyboxParent env tid.res
  else if tid.res = 0 then busyboxChild env command next
  else writeErr (ascii "clone3 error") tid.res

inductive Builtin where
  | time
  | ls
  | cat
  | env
  | exit
  | usage
  | memrun
deriving DecidableEq

def Builtin.func (env : Env) : Builtin → Nat → Proc Unit
  | .time, _ => cmdTime env
  | .ls, next => cmdLs next
  | .cat, next => cmdCat next
  | .env, _ => cmdEnv env
  | .exit, _ => cmdExit
  | .usage, _ => cmdUsage env
  | .memrun, next => cmdMemrun env next

def builtins : List (List UInt8 × Builtin) :=
  [(ascii "time", .time), (ascii "ls", .ls), (ascii "cat", .cat), (ascii "env", .env),
    (ascii "exit", .exit), (ascii "usage", .usage), (ascii "memrun", .memrun)]

/-- The loop over the table, and what runs when no name matches. -/
def runCommand (env : Env) (prog next : Nat) : List (List UInt8 × Builtin) → Proc Unit
  | [] => busybox env prog next
  | (name, builtin) :: others => do
      if ← streq prog name then builtin.func env next
      else runCommand env prog next others

def processCommand (env : Env) (args : Nat) : Proc Unit := do
  match ← findArg args with
  | none => pure ()
  | some prog =>
      let next ← terminateArg prog
      runCommand env prog next builtins

end MinLinux.Command
