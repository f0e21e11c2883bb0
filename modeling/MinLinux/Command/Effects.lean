import MinLinux.Command.Builtins

/-! Which system calls the parts of a command make. Nothing here depends on what the
calls return: the lemmas follow the control flow of each function through all of its
error branches. -/
namespace MinLinux.Command
open Dialog

section Effects
variable {I : List UInt8 → Prop} {P : Event → Prop}

/-- Console output is allowed. -/
def Writes (P : Event → Prop) : Prop := ∀ bytes r, P (.write STDOUT bytes, r)

theorem stringOf_emits (outside : Stop) (array : List UInt8) (p : Nat) :
    Emits I P (stringOf outside array p) := by
  unfold stringOf
  split
  · exact .stop _
  · exact .pure _

theorem loadByte_emits (outside : Stop) (array : List UInt8) (i : Nat) :
    Emits I P (loadByte outside array i) := by
  unfold loadByte
  split
  · exact .stop _
  · exact .pure _

theorem loadString_emits (p : CharPtr) : Emits I P (loadString p) := by
  cases p with
  | literal text => exact .pure _
  | line p => exact .get_bind fun _ _ => stringOf_emits _ _ _

variable (writes : Writes P)
include writes

theorem writeStr_emits (bytes : List UInt8) : Emits I P (writeStr bytes) :=
  .bind (.ask _ _ fun _ => writes _ _) fun _ => .pure _

theorem writeInt_emits (value : UInt64) : Emits I P (writeInt value) := by
  unfold writeInt
  dsimp only
  split
  · exact .stop _
  · exact writeStr_emits writes _

theorem writeErr_emits (text : List UInt8) (err : Int) : Emits I P (writeErr text err) := by
  refine .bind (writeStr_emits writes _) fun _ => .bind (writeStr_emits writes _) fun _ => ?_
  exact .bind (writeInt_emits writes _) fun _ => writeStr_emits writes _

theorem syscheck_emits (env : Env) (line : String) (call : Call) (allowed : ∀ r, P (call, r)) :
    Emits I P (syscheck env line call) := by
  refine .bind (.ask _ _ allowed) fun reply => ?_
  split
  · refine .bind (writeStr_emits writes _) fun _ => .bind (writeStr_emits writes _) fun _ => ?_
    exact .bind (writeStr_emits writes _) fun _ => .stop _
  · exact .pure _

theorem direntLoop_emits (buffer : List UInt8) (count : Int) (fuel pos : Nat) :
    Emits I P (direntLoop buffer count fuel pos) := by
  induction fuel generalizing pos with
  | zero => exact .stop _
  | succ fuel ih =>
    unfold direntLoop
    split
    · refine .bind (stringOf_emits _ _ _) fun _ => .bind (.ask _ _ fun _ => writes _ _) fun _ => ?_
      refine .bind (loadByte_emits _ _ _) fun _ => .bind (writeStr_emits writes _) fun _ => ?_
      exact .bind (loadByte_emits _ _ _) fun _ => .bind (loadByte_emits _ _ _) fun _ => ih _
    · exact .pure _

theorem dirlistLoop_emits (lists : ∀ fd r, P (.getdents64 fd 1024, r)) (rootdir : Int)
    (fuel : Nat) : Emits I P (dirlistLoop rootdir fuel) := by
  induction fuel with
  | zero => exact .stop _
  | succ fuel ih =>
    refine .bind (.ask _ _ fun _ => lists _ _) fun reply => .bind .budget fun _ => ?_
    refine .bind (direntLoop_emits writes _ _ _ _) fun _ => ?_
    split
    · exact ih
    · exact .pure _

theorem catLoop_emits (reads : ∀ fd r, P (.read fd 1024, r)) (fd : Int) (fuel : Nat)
    (buffer : List UInt8) : Emits I P (catLoop fd fuel buffer) := by
  induction fuel generalizing buffer with
  | zero => exact .stop _
  | succ fuel ih =>
    refine .bind (.ask _ _ fun _ => reads _ _) fun reply => ?_
    dsimp only
    split
    · refine .bind (.ask _ _ fun _ => writes _ _) fun written => ?_
      split
      · exact .bind (writeErr_emits writes _ _) fun _ => ih _
      · exact ih _
    · exact .pure _

theorem cmdTime_emits (asks : ∀ r, P (.clockGettime, r)) (env : Env) : Emits I P (cmdTime env) := by
  refine .bind (syscheck_emits writes _ _ _ asks) fun _ => .bind (writeStr_emits writes _) fun _ => ?_
  refine .bind (writeInt_emits writes _) fun _ => .bind (writeStr_emits writes _) fun _ => ?_
  exact .bind (writeInt_emits writes _) fun _ => writeStr_emits writes _

theorem cmdUsage_emits (asks : ∀ r, P (.sysinfo, r)) (env : Env) : Emits I P (cmdUsage env) := by
  refine .bind (syscheck_emits writes _ _ _ asks) fun _ => .bind (writeStr_emits writes _) fun _ => ?_
  refine .bind (writeInt_emits writes _) fun _ => .bind (writeStr_emits writes _) fun _ => ?_
  exact .bind (writeInt_emits writes _) fun _ => writeStr_emits writes _

theorem cmdEnv_emits (env : Env) : Emits I P (cmdEnv env) := by
  unfold cmdEnv
  induction env.envp with
  | nil => exact .pure _
  | cons entry rest ih =>
    refine .bind (.bind (writeStr_emits writes _) fun _ => writeStr_emits writes _) fun _ => ih

theorem openConsole_emits (closes : ∀ r, P (.closeRange 0 0xFFFFFFFF 0, r))
    (opens : ∀ path flags r, P (.openat path flags, r)) (dups : ∀ fd r, P (.dup3 fd 2, r))
    (env : Env) (inLine outLine dupLine : String) :
    Emits I P (openConsole env inLine outLine dupLine) := by
  refine .bind (.bind (.ask _ _ closes) fun _ => .pure _) fun _ => ?_
  refine .bind (syscheck_emits writes _ _ _ (opens _ _)) fun _ => ?_
  refine .bind (syscheck_emits writes _ _ _ (opens _ _)) fun _ => ?_
  exact .bind (syscheck_emits writes _ _ _ (dups _)) fun _ => .pure _

theorem memrunParent_emits (waits : ∀ pid r, P (.waitid pid, r)) (env : Env) (tid : Int) :
    Emits I P (memrunParent env tid) := by
  refine .bind (writeStr_emits writes _) fun _ => .bind (writeInt_emits writes _) fun _ => ?_
  refine .bind (writeStr_emits writes _) fun _ => ?_
  refine .bind (syscheck_emits writes _ _ _ (waits _)) fun _ => ?_
  refine .bind (writeStr_emits writes _) fun _ => .bind (writeInt_emits writes _) fun _ => ?_
  refine .bind (writeStr_emits writes _) fun _ => ?_
  exact .bind (writeInt_emits writes _) fun _ => writeStr_emits writes _

theorem busyboxParent_emits (waits : ∀ pid r, P (.waitid pid, r)) (env : Env) (tid : Int) :
    Emits I P (busyboxParent env tid) := by
  refine .bind (syscheck_emits writes _ _ _ (waits _)) fun _ => ?_
  refine .bind (writeStr_emits writes _) fun _ => ?_
  exact .bind (writeInt_emits writes _) fun _ => writeStr_emits writes _

end Effects

/-- The command line may be cut at any place. -/
def Stores (I : List UInt8 → Prop) : Prop := ∀ mem q, I mem → I (mem.set q 0)

/-- Every call but `clone3` is allowed. -/
def Ordinary (P : Event → Prop) : Prop :=
  ∀ call r, (∀ flags signal, call ≠ .clone3 flags signal) → P (call, r)

/-- `clone3` has returned in the child, which works on a copy from here on. -/
def inChild : Event → Bool
  | (.clone3 _ _, r) => r.res == 0
  | _ => false

theorem Ordinary.writes {P : Event → Prop} (ordinary : Ordinary P) : Writes P :=
  fun _ _ => ordinary _ _ nofun

theorem all_stores : Stores fun _ => True := fun _ _ => id

theorem all_ordinary : Ordinary fun _ => True := fun _ _ _ => trivial

section Arguments
variable {I : List UInt8 → Prop} {P : Event → Prop}

theorem findArg_emits (p : Nat) : Emits I P (findArg p) := by
  refine .get_bind fun mem _ => ?_
  split
  · exact .stop _
  · exact .pure _

theorem streq_emits (p : Nat) (name : List UInt8) : Emits I P (streq p name) := by
  refine .get_bind fun mem _ => ?_
  split
  · exact .stop _
  · exact .pure _

theorem storeArg_emits (args : List Arg) (i : Nat) (arg : Arg) :
    Emits I P (storeArg args i arg) := by
  unfold storeArg
  split
  · exact .pure _
  · exact .stop _

theorem loadArgs_emits (args : List Arg) : Emits I P (loadArgs args) := by
  induction args with
  | nil => exact .stop _
  | cons arg rest ih =>
    cases arg with
    | uninit => exact .stop _
    | null => exact .pure _
    | str p => exact .bind (loadString_emits _) fun _ => .bind ih fun _ => .pure _

variable (stores : Stores I)
include stores

theorem terminateArg_emits (p : Nat) : Emits I P (terminateArg p) := by
  refine .get_bind fun mem inside => ?_
  split
  · exact .stop _
  · exact .pure _
  · exact .bind (.put (stores _ _ inside)) fun _ => .pure _

theorem fillLoop_emits (base left i : Nat) (args : List Arg) (next : Option Nat) :
    Emits I P (fillLoop base left i args next) := by
  induction left generalizing i args next with
  | zero => exact .pure _
  | succ left ih =>
    cases next with
    | none => exact .pure _
    | some next =>
      refine .bind (terminateArg_emits stores _) fun _ => .bind (storeArg_emits _ _ _) fun _ => ?_
      exact .bind (findArg_emits _) fun _ => ih _ _ _

variable (ordinary : Ordinary P)
include ordinary

theorem fillArgs_emits (maxargs base : Nat) (args : List Arg) (next : Option Nat) :
    Emits I P (fillArgs maxargs base args next) := by
  have writes := ordinary.writes
  refine .bind (fillLoop_emits stores _ _ _ _ _) fun ⟨i, args⟩ => ?_
  dsimp only
  split
  · refine .bind (writeStr_emits writes _) fun _ => .bind (writeInt_emits writes _) fun _ => ?_
    exact .bind (writeStr_emits writes _) fun _ => .pure _
  · exact storeArg_emits _ _ _

end Arguments

section Commands
variable {I : List UInt8 → Prop} {P : Event → Prop} (ordinary : Ordinary P)
include ordinary

theorem dirlist_emits (path : CharPtr) : Emits I P (dirlist path) := by
  have writes := ordinary.writes
  refine .bind (loadString_emits _) fun _ => .bind (.ask _ _ fun _ => ordinary _ _ nofun) fun _ => ?_
  split
  · refine .bind (writeStr_emits writes _) fun _ => .bind (loadString_emits _) fun _ => ?_
    refine .bind (writeStr_emits writes _) fun _ => .bind (writeStr_emits writes _) fun _ => ?_
    exact .bind (writeInt_emits writes _) fun _ => writeStr_emits writes _
  · exact .bind .budget fun _ => dirlistLoop_emits writes (fun _ _ => ordinary _ _ nofun) _ _

theorem catFile_emits (path : CharPtr) : Emits I P (catFile path) := by
  have writes := ordinary.writes
  refine .bind (loadString_emits _) fun _ => .bind (.ask _ _ fun _ => ordinary _ _ nofun) fun _ => ?_
  split
  · exact writeErr_emits writes _ _
  · refine .bind .budget fun _ => ?_
    refine .bind (catLoop_emits writes (fun _ _ => ordinary _ _ nofun) _ _ _) fun _ => ?_
    split
    · exact writeErr_emits writes _ _
    · exact .pure _

theorem openConsole_ordinary (env : Env) (inLine outLine dupLine : String) :
    Emits I P (openConsole env inLine outLine dupLine) :=
  openConsole_emits ordinary.writes (fun _ => ordinary _ _ nofun) (fun _ _ _ => ordinary _ _ nofun)
    (fun _ _ => ordinary _ _ nofun) _ _ _ _

theorem syscheck_ordinary (env : Env) (line : String) (call : Call)
    (other : ∀ flags signal, call ≠ .clone3 flags signal) : Emits I P (syscheck env line call) :=
  syscheck_emits ordinary.writes _ _ _ fun _ => ordinary _ _ other

theorem execveat_ordinary (dirfd : Int) (path : List UInt8) (args : List Arg) (flags : Nat) :
    Emits I P (execveat dirfd path args flags) := by
  refine .bind (loadArgs_emits _) fun _ => .bind (.ask _ _ fun _ => ordinary _ _ nofun) fun reply => ?_
  split
  · exact .pure _
  · exact .stop _

variable (stores : Stores I)
include stores

theorem cmdLs_emits (next : Nat) : Emits I P (cmdLs next) := by
  refine .bind (findArg_emits _) fun found => ?_
  cases found with
  | none => exact dirlist_emits ordinary _
  | some dir => exact .bind (terminateArg_emits stores _) fun _ => dirlist_emits ordinary _

theorem cmdCat_emits (next : Nat) : Emits I P (cmdCat next) := by
  refine .bind (findArg_emits _) fun found => ?_
  cases found with
  | none => exact writeStr_emits ordinary.writes _
  | some path => exact .bind (terminateArg_emits stores _) fun _ => catFile_emits ordinary _

theorem memrunChild_emits (env : Env) (path next : Nat) : Emits I P (memrunChild env path next) := by
  refine .bind (storeArg_emits _ _ _) fun _ => ?_
  refine .bind (fillArgs_emits stores ordinary _ _ _ _) fun _ => ?_
  refine .bind (openConsole_ordinary ordinary _ _ _ _) fun _ => ?_
  refine .bind (.ask _ _ fun _ => ordinary _ _ nofun) fun _ => .bind (loadString_emits _) fun _ => ?_
  refine .bind (syscheck_ordinary ordinary _ _ _ nofun) fun _ => ?_
  refine .bind (syscheck_ordinary ordinary _ _ _ nofun) fun _ => ?_
  refine .bind (syscheck_ordinary ordinary _ _ _ nofun) fun _ => ?_
  refine .bind (syscheck_ordinary ordinary _ _ _ nofun) fun _ => ?_
  exact .bind (execveat_ordinary ordinary _ _ _ _) fun _ => writeErr_emits ordinary.writes _ _

theorem busyboxChild_emits (env : Env) (command : Nat) (next : Option Nat) :
    Emits I P (busyboxChild env command next) := by
  refine .bind (storeArg_emits _ _ _) fun _ => .bind (storeArg_emits _ _ _) fun _ => ?_
  refine .bind (fillArgs_emits stores ordinary _ _ _ _) fun _ => ?_
  refine .bind (openConsole_ordinary ordinary _ _ _ _) fun _ => ?_
  refine .bind (syscheck_ordinary ordinary _ _ _ nofun) fun _ => ?_
  exact .bind (execveat_ordinary ordinary _ _ _ _) fun _ => writeErr_emits ordinary.writes _ _

/-- No builtin but `memrun` makes a process. -/
theorem func_emits (env : Env) (builtin : Builtin) (next : Nat) (other : builtin ≠ .memrun) :
    Emits I P (builtin.func env next) := by
  cases builtin with
  | time => exact cmdTime_emits ordinary.writes (fun _ => ordinary _ _ nofun) env
  | ls => exact cmdLs_emits ordinary stores next
  | cat => exact cmdCat_emits ordinary stores next
  | env => exact cmdEnv_emits ordinary.writes env
  | exit => exact .stop _
  | usage => exact cmdUsage_emits ordinary.writes (fun _ => ordinary _ _ nofun) env
  | memrun => exact absurd rfl other

end Commands

section Whole
variable {I : List UInt8 → Prop} {P : Event → Prop} (stores : Stores I) (all : ∀ e, P e)
include stores all

theorem memrunFile_emits (env : Env) (path next : Nat) : Emits I P (memrunFile env path next) := by
  have ordinary : Ordinary P := fun _ _ _ => all _
  refine .bind (.ask _ _ fun _ => all _) fun tid => ?_
  split
  · exact memrunParent_emits ordinary.writes (fun _ _ => all _) _ _
  · split
    · exact memrunChild_emits ordinary stores _ _ _
    · exact writeErr_emits ordinary.writes _ _

theorem cmdMemrun_emits (env : Env) (next : Nat) : Emits I P (cmdMemrun env next) := by
  refine .bind (findArg_emits _) fun found => ?_
  cases found with
  | none => exact writeStr_emits (fun _ _ => all _) _
  | some path =>
    exact .bind (terminateArg_emits stores _) fun _ => memrunFile_emits stores all _ _ _

theorem busybox_emits (env : Env) (command next : Nat) : Emits I P (busybox env command next) := by
  have ordinary : Ordinary P := fun _ _ _ => all _
  refine .bind (findArg_emits _) fun next => .bind (.ask _ _ fun _ => all _) fun tid => ?_
  split
  · exact busyboxParent_emits ordinary.writes (fun _ _ => all _) _ _
  · split
    · exact busyboxChild_emits ordinary stores _ _ _
    · exact writeErr_emits ordinary.writes _ _

theorem runCommand_emits (env : Env) (prog next : Nat) (table : List (List UInt8 × Builtin)) :
    Emits I P (runCommand env prog next table) := by
  induction table with
  | nil => exact busybox_emits stores all _ _ _
  | cons entry others ih =>
    obtain ⟨name, builtin⟩ := entry
    refine .bind (streq_emits _ _) fun equal => ?_
    split
    · by_cases isMemrun : builtin = .memrun
      · subst isMemrun
        exact cmdMemrun_emits stores all _ _
      · exact func_emits (fun _ _ _ => all _) stores _ _ _ isMemrun
    · exact ih

/-- Whatever a command does to the line, it only cuts it. -/
theorem processCommand_emits (env : Env) (args : Nat) : Emits I P (processCommand env args) := by
  refine .bind (findArg_emits _) fun found => ?_
  cases found with
  | none => exact .pure _
  | some prog => exact .bind (terminateArg_emits stores _) fun _ => runCommand_emits stores all _ _ _ _

end Whole

/-- No store moves anything. -/
theorem processCommand_length (env : Env) (args : Nat) (w : World) :
    (processCommand env args w).2.state.length = w.state.length := by
  have stores : Stores fun mem => mem.length = w.state.length :=
    fun mem q same => List.length_set.trans same
  exact (processCommand_emits stores (P := fun _ => True) (fun _ => trivial) env args w rfl).1

end MinLinux.Command
