import MinLinux.Contract
import MinLinux.Command.Effects

/-! Contracts of commands. Most of a command makes ordinary calls only; what a contract has
to say is said about the checked calls and about the three returns of `clone3`. -/
namespace MinLinux.Command
open Dialog
variable {G : Type} {follow : G → Event → Option G} {pre : G → Prop} {stops : Stop → G → Prop}

theorem syscall_triple {post : Reply → G → Prop}
    (answered : ∀ g r g', pre g → follow g (call, r) = some g' → post r g')
    (starves : ∀ g, pre g → stops .starved g) : Triple follow pre (syscall call) post stops :=
  .ask answered starves

/-- A call that fails is reported and ends the process. -/
theorem Macro.syscheck_triple {C R S : Type} {write : Int → List UInt8 → C} {res : R → Int}
    {follow : G → C × R → Option G} {post : R → G → Prop} {N : G → Prop} {call : C}
    (file stale : List UInt8) (line : String)
    (reports : ∀ g bytes r g', N g → follow g (write STDOUT bytes, r) = some g' → N g')
    (ends : ∀ e g, N g → stops e g) (starves : ∀ g, pre g → stops .starved g)
    (succeeds : ∀ g r g', pre g → 0 ≤ res r → follow g (call, r) = some g' → post r g')
    (fails : ∀ g r g', pre g → res r < 0 → follow g (call, r) = some g' → N g') :
    Triple follow pre
      (Macro.syscheck write res file stale line call : Dialog C R S Stop R) post stops := by
  have written : ∀ bytes, Triple follow N (Macro.writeStr write bytes : Dialog C R S Stop Unit)
      (fun _ => N) stops := fun bytes =>
    .bind (.ask (fun g r g' => reports g bytes r g') (ends _)) fun _ => .pure fun _ => id
  apply Triple.bind (M := fun r g => if res r < 0 then N g else post r g)
  · refine .ask (fun g r g' before followed => ?_) starves
    split
    · rename_i negative
      exact fails g r g' before negative followed
    · rename_i positive
      exact succeeds g r g' before (Int.not_lt.mp positive) followed
  · intro reply
    split
    · refine .bind (written _) fun _ => .bind (written _) fun _ => ?_
      exact .bind (written _) fun _ => .stop (ends _)
    · exact .pure fun _ => id

theorem syscheck_triple {post : Reply → G → Prop} {N : G → Prop} {P : Event → Prop} (env : Env)
    (line : String) (writes : Writes P)
    (keeps : ∀ g event g', P event → N g → follow g event = some g' → N g')
    (ends : ∀ e g, N g → stops e g) (starves : ∀ g, pre g → stops .starved g)
    (succeeds : ∀ g r g', pre g → 0 ≤ r.res → follow g (call, r) = some g' → post r g')
    (fails : ∀ g r g', pre g → r.res < 0 → follow g (call, r) = some g' → N g') :
    Triple follow pre (syscheck env line call) post stops :=
  Macro.syscheck_triple env.file env.stale line
    (fun g bytes r g' => keeps g (.write STDOUT bytes, r) g' (writes bytes r)) ends starves succeeds
    fails

/-- The vector is built without a system call, but for the report of a truncation. -/
theorem fillArgs_writes {I : List UInt8 → Prop} {P : Event → Prop} (writes : Writes P)
    (stores : Stores I) (maxargs base : Nat) (args : List Arg) (next : Option Nat) :
    Emits I P (fillArgs maxargs base args next) := by
  refine .bind (fillLoop_emits stores _ _ _ _ _) fun ⟨i, args⟩ => ?_
  dsimp only
  split
  · refine .bind (writeStr_emits writes _) fun _ => ?_
    refine .bind (writeInt_emits writes _) fun _ => ?_
    exact .bind (writeStr_emits writes _) fun _ => .pure _
  · exact storeArg_emits _ _ _

/-- The calls of the builtins that make no process. -/
structure Plain (P : Event → Prop) : Prop where
  writes : Writes P
  reads : ∀ fd r, P (.read fd 1024, r)
  opens : ∀ path flags r, P (.openat path flags, r)
  opens2 : ∀ path flags r, P (.openat2 path flags, r)
  lists : ∀ fd r, P (.getdents64 fd 1024, r)
  times : ∀ r, P (.clockGettime, r)
  informs : ∀ r, P (.sysinfo, r)

section Plain
variable {I : List UInt8 → Prop} {P : Event → Prop} (plain : Plain P)
include plain

theorem dirlist_plain (path : CharPtr) : Emits I P (dirlist path) := by
  refine .bind (loadString_emits _) fun _ => .bind (.ask _ _ fun _ => plain.opens _ _ _) fun _ => ?_
  split
  · refine .bind (writeStr_emits plain.writes _) fun _ => .bind (loadString_emits _) fun _ => ?_
    refine .bind (writeStr_emits plain.writes _) fun _ => ?_
    refine .bind (writeStr_emits plain.writes _) fun _ => ?_
    exact .bind (writeInt_emits plain.writes _) fun _ => writeStr_emits plain.writes _
  · exact .bind .budget fun _ => dirlistLoop_emits plain.writes plain.lists _ _

theorem catFile_plain (path : CharPtr) : Emits I P (catFile path) := by
  refine .bind (loadString_emits _) fun _ => .bind (.ask _ _ fun _ => plain.opens2 _ _ _) fun _ => ?_
  split
  · exact writeErr_emits plain.writes _ _
  · refine .bind .budget fun _ => .bind (catLoop_emits plain.writes plain.reads _ _ _) fun _ => ?_
    split
    · exact writeErr_emits plain.writes _ _
    · exact .pure _

theorem func_plain (stores : Stores I) (env : Env) (builtin : Builtin) (next : Nat)
    (other : builtin ≠ .memrun) : Emits I P (builtin.func env next) := by
  cases builtin with
  | time => exact cmdTime_emits plain.writes plain.times env
  | ls =>
    refine .bind (findArg_emits _) fun found => ?_
    cases found with
    | none => exact dirlist_plain plain _
    | some dir => exact .bind (terminateArg_emits stores _) fun _ => dirlist_plain plain _
  | cat =>
    refine .bind (findArg_emits _) fun found => ?_
    cases found with
    | none => exact writeStr_emits plain.writes _
    | some path => exact .bind (terminateArg_emits stores _) fun _ => catFile_plain plain _
  | env => exact cmdEnv_emits plain.writes env
  | exit => exact .stop _
  | usage => exact cmdUsage_emits plain.writes plain.informs env
  | memrun => exact absurd rfl other

end Plain

section Process
variable {post : G → Prop} {P : Event → Prop} {env : Env}

/-- The three returns of `clone3`. -/
theorem clone_triple {parent child error : Reply → Proc Unit}
    (starves : ∀ g, pre g → stops .starved g)
    (parents : ∀ tid, 0 < tid.res →
      Triple follow (fun g' => ∃ g, pre g ∧ follow g (.clone3 0 SIGCHLD, tid) = some g')
        (parent tid) (fun _ => post) stops)
    (children : ∀ tid, tid.res = 0 →
      Triple follow (fun g' => ∃ g, pre g ∧ follow g (.clone3 0 SIGCHLD, tid) = some g')
        (child tid) (fun _ => post) stops)
    (errors : ∀ tid, tid.res < 0 →
      Triple follow (fun g' => ∃ g, pre g ∧ follow g (.clone3 0 SIGCHLD, tid) = some g')
        (error tid) (fun _ => post) stops) :
    Triple follow pre (do
      let tid ← syscall (.clone3 0 SIGCHLD)
      if 0 < tid.res then parent tid else if tid.res = 0 then child tid else error tid)
      (fun _ => post) stops := by
  apply Triple.bind (M := fun tid g' => ∃ g, pre g ∧ follow g (.clone3 0 SIGCHLD, tid) = some g')
  · exact syscall_triple (fun g r g' before followed => ⟨g, before, followed⟩) starves
  · intro tid
    split
    · rename_i positive
      exact parents tid positive
    · split
      · rename_i zero
        exact children tid zero
      · exact errors tid (by omega)

/-- Up to its `clone3` a command keeps what the calls of the builtins keep. -/
theorem processCommand_triple (plain : Plain P)
    (keeps : ∀ g event g', P event → pre g → follow g event = some g' → pre g')
    (ends : ∀ e g, pre g → stops e g) (returns : ∀ g, pre g → post g)
    (memrun : ∀ path next, Triple follow pre (memrunFile env path next) (fun _ => post) stops)
    (busyboxes : ∀ command found, Triple follow pre (do
      let tid ← syscall (.clone3 0 SIGCHLD)
      if 0 < tid.res then busyboxParent env tid.res
      else if tid.res = 0 then busyboxChild env command found
      else writeErr (ascii "clone3 error") tid.res) (fun _ => post) stops) (args : Nat) :
    Triple follow pre (processCommand env args) (fun _ => post) stops := by
  have framed : ∀ {α : Type} {m : Proc α}, Emits (fun _ => True) P m →
      Triple follow pre m (fun _ => pre) stops := fun emits => .frame emits keeps ends
  have whole : ∀ {m : Proc Unit}, Emits (fun _ => True) P m →
      Triple follow pre m (fun _ => post) stops := fun emits => (framed emits).weaken fun _ => returns
  have builtin : ∀ builtin next, Triple follow pre (Builtin.func env builtin next)
      (fun _ => post) stops := by
    intro builtin next
    by_cases isMemrun : builtin = .memrun
    · subst isMemrun
      refine .bind (framed (findArg_emits _)) fun found => ?_
      cases found with
      | none => exact whole (writeStr_emits plain.writes _)
      | some path => exact .bind (framed (terminateArg_emits all_stores _)) fun _ => memrun _ _
    · exact whole (func_plain plain all_stores env builtin next isMemrun)
  have table : ∀ prog next names, Triple follow pre (runCommand env prog next names)
      (fun _ => post) stops := by
    intro prog next names
    induction names with
    | nil => exact .bind (framed (findArg_emits _)) fun _ => busyboxes _ _
    | cons entry others ih =>
      refine .bind (framed (streq_emits _ _)) fun equal => ?_
      split
      · exact builtin _ _
      · exact ih
  refine .bind (framed (findArg_emits _)) fun found => ?_
  cases found with
  | none => exact .pure returns
  | some prog => exact .bind (framed (terminateArg_emits all_stores _)) fun _ => table _ _ _

end Process
end MinLinux.Command
