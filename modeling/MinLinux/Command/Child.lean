import MinLinux.Command.Effects

/-! The child's way out of a command. Every system call of the child that fails ends it,
except the last: when `execveat` fails, the child reports it and returns from
`process_command` as its parent would. -/
namespace MinLinux.Command
open Dialog

def execFailed : Event → Bool
  | (.execveat _ _ _ _ _, r) => decide (r.res < 0)
  | _ => false

def ExecFailed (events : List Event) : Prop := ∃ e ∈ events, execFailed e = true

/-- Where a child is among those that spoke, an `execveat` has failed. -/
def FellThrough (events : List Event) : Prop :=
  (∃ e ∈ events, inChild e = true) → ExecFailed events

theorem ExecFailed.append_left (failed : ExecFailed new) : ExecFailed (new ++ more) := by
  obtain ⟨e, member, failed⟩ := failed
  exact ⟨e, List.mem_append_left _ member, failed⟩

theorem ExecFailed.append_right (failed : ExecFailed more) : ExecFailed (new ++ more) := by
  obtain ⟨e, member, failed⟩ := failed
  exact ⟨e, List.mem_append_right _ member, failed⟩

/-- The calls of a process that is not a child. -/
def Parental (e : Event) : Prop := inChild e = false

theorem parental_ordinary : Ordinary Parental := by
  intro call r other
  cases call with
  | clone3 flags signal => exact absurd rfl (other flags signal)
  | _ => rfl

theorem FellThrough.of_parental (parental : ∀ e ∈ new, Parental e) : FellThrough new := by
  rintro ⟨e, member, child⟩
  cases (parental e member).symm.trans child

theorem FellThrough.append (parental : ∀ e ∈ new, Parental e) (later : FellThrough more) :
    FellThrough (new ++ more) := by
  rintro ⟨e, member, child⟩
  rcases List.mem_append.mp member with first | second
  · cases (parental e first).symm.trans child
  · exact (later ⟨e, second, child⟩).append_right

theorem FellThrough.cons (parental : Parental e) (later : FellThrough more) :
    FellThrough (e :: more) := by
  have first : ∀ e' ∈ [e], Parental e' := by simpa using parental
  exact .append first later

section Child
variable {env : Env}

/-- A part of the child in front of its `execveat`. -/
theorem exec_after {m : Proc α} {f : α → Proc β} (first : Emits (fun _ => True) (fun _ => True) m)
    (next : ∀ a, Ends ExecFailed (f a)) : Ends ExecFailed (m >>= f) :=
  .after first next fun _ _ _ => ExecFailed.append_right

theorem execveat_ends (dirfd : Int) (path : List UInt8) (args : List Arg) (flags : Nat) :
    Ends ExecFailed (execveat dirfd path args flags) := by
  refine exec_after (loadArgs_emits _) fun argv => .ask_bind fun reply => ?_
  split
  · rename_i negative
    refine .of_emits (P := fun _ => True) (.pure _) fun new _ => ?_
    exact ⟨_, List.mem_cons_self, decide_eq_true negative⟩
  · exact .stop _

theorem report_ends (dirfd : Int) (path : List UInt8) (args : List Arg) (flags : Nat) :
    Ends ExecFailed (do
      let execres ← execveat dirfd path args flags
      writeErr (ascii "execveat returned ") execres.res) :=
  .before (execveat_ends _ _ _ _) (fun _ => writeErr_emits all_ordinary.writes _ _)
    fun _ _ => ExecFailed.append_left

theorem memrunChild_ends (path next : Nat) : Ends ExecFailed (memrunChild env path next) := by
  refine exec_after (storeArg_emits _ _ _) fun _ => ?_
  refine exec_after (fillArgs_emits all_stores all_ordinary _ _ _ _) fun _ => ?_
  refine exec_after (openConsole_ordinary all_ordinary _ _ _ _) fun _ => ?_
  refine exec_after (.ask _ _ fun _ => trivial) fun _ => ?_
  refine exec_after (loadString_emits _) fun _ => ?_
  refine exec_after (syscheck_ordinary all_ordinary _ _ _ nofun) fun _ => ?_
  refine exec_after (syscheck_ordinary all_ordinary _ _ _ nofun) fun _ => ?_
  refine exec_after (syscheck_ordinary all_ordinary _ _ _ nofun) fun _ => ?_
  exact exec_after (syscheck_ordinary all_ordinary _ _ _ nofun) fun _ => report_ends _ _ _ _

theorem busyboxChild_ends (command : Nat) (next : Option Nat) :
    Ends ExecFailed (busyboxChild env command next) := by
  refine exec_after (storeArg_emits _ _ _) fun _ => ?_
  refine exec_after (storeArg_emits _ _ _) fun _ => ?_
  refine exec_after (fillArgs_emits all_stores all_ordinary _ _ _ _) fun _ => ?_
  refine exec_after (openConsole_ordinary all_ordinary _ _ _ _) fun _ => ?_
  exact exec_after (syscheck_ordinary all_ordinary _ _ _ nofun) fun _ => report_ends _ _ _ _

end Child

section Commands
variable {env : Env}

/-- A part of a command in front of its `clone3`. -/
theorem fell_after {m : Proc α} {f : α → Proc β} (first : Emits (fun _ => True) Parental m)
    (next : ∀ a, Ends FellThrough (f a)) : Ends FellThrough (m >>= f) :=
  .after first next fun _ _ => FellThrough.append

/-- The three returns of `clone3`. -/
theorem clone_ends {parent child error : Reply → Proc Unit}
    (parental : ∀ tid, Emits (fun _ => True) Parental (parent tid))
    (exec : ∀ tid, Ends ExecFailed (child tid))
    (failed : ∀ tid, Emits (fun _ => True) Parental (error tid)) :
    Ends FellThrough (do
      let tid ← syscall (.clone3 0 SIGCHLD)
      if 0 < tid.res then parent tid else if tid.res = 0 then child tid else error tid) := by
  refine .ask_bind fun tid => ?_
  have other : tid.res ≠ 0 → Parental (.clone3 0 SIGCHLD, tid) := by
    intro nonzero
    simpa [Parental, inChild] using nonzero
  split
  · exact .of_emits (parental tid) fun new each => .cons (other (by omega)) (.of_parental each)
  · split
    · intro w a w' ran
      obtain ⟨new, asked, ⟨e, member, failed⟩⟩ := exec tid w a w' ran
      exact ⟨new, asked, fun _ => ⟨e, List.mem_cons_of_mem _ member, failed⟩⟩
    · rename_i nonzero
      exact .of_emits (failed tid) fun new each => .cons (other nonzero) (.of_parental each)

theorem memrunFile_ends (path next : Nat) : Ends FellThrough (memrunFile env path next) :=
  clone_ends (fun _ => memrunParent_emits parental_ordinary.writes (fun _ _ => rfl) _ _)
    (fun _ => memrunChild_ends _ _) fun _ => writeErr_emits parental_ordinary.writes _ _

theorem busybox_ends (command next : Nat) : Ends FellThrough (busybox env command next) :=
  fell_after (findArg_emits _) fun _ =>
    clone_ends (fun _ => busyboxParent_emits parental_ordinary.writes (fun _ _ => rfl) _ _)
      (fun _ => busyboxChild_ends _ _) fun _ => writeErr_emits parental_ordinary.writes _ _

theorem func_ends (builtin : Builtin) (next : Nat) : Ends FellThrough (builtin.func env next) := by
  by_cases isMemrun : builtin = .memrun
  · subst isMemrun
    refine fell_after (findArg_emits _) fun found => ?_
    cases found with
    | none =>
      exact .of_emits (writeStr_emits parental_ordinary.writes _) fun _ => .of_parental
    | some path =>
      exact fell_after (terminateArg_emits all_stores _) fun _ => memrunFile_ends _ _
  · exact .of_emits (func_emits parental_ordinary all_stores env builtin next isMemrun)
      fun _ => .of_parental

theorem runCommand_ends (prog next : Nat) (table : List (List UInt8 × Builtin)) :
    Ends FellThrough (runCommand env prog next table) := by
  induction table with
  | nil => exact busybox_ends _ _
  | cons entry others ih =>
    refine fell_after (streq_emits _ _) fun equal => ?_
    split
    · exact func_ends _ _
    · exact ih

/-- `process_command` returns in a child only after a failed `execveat`. -/
theorem processCommand_ends (env : Env) (args : Nat) :
    Ends FellThrough (processCommand env args) := by
  refine fell_after (findArg_emits _) fun found => ?_
  cases found with
  | none => exact .of_emits (P := Parental) (.pure _) fun _ => .of_parental
  | some prog =>
    exact fell_after (terminateArg_emits all_stores _) fun _ => runCommand_ends _ _ _

end Commands
end MinLinux.Command
