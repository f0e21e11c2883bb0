import MinLinux.Files
import MinLinux.Command.Contracts
import MinLinux.Command.Descriptors

/-! What a program that a command executes starts with, and what a command leaves of init.
The kernel keeps for each process its descriptors, the signals it blocks, its environment
and the program it runs; a child begins with copies of those of init. -/
namespace MinLinux.Command.Inheritance
open Dialog Files Descriptors

/-- What a descriptor refers to, or a process runs. `inherited` is anything that the
process had before the command. -/
inductive Object (F : Type) where
  | inherited (file : F)
  | opened (path : List UInt8) (flags : Nat)
  | memory
deriving DecidableEq

/-- `image` is the program that has been executed, none in init and its children. `isChild`
is a process that a command has made. -/
structure Process (limit : Nat) (F : Type) where
  files : Table limit (Object F)
  blocked : UInt64
  envp : List (List UInt8)
  image : Option (Object F)
  isChild : Bool

section Kernel
variable {limit : Nat} {F : Type}

/-- A call that changes the descriptors unless it fails. -/
def Process.afterFiles (p : Process limit F) (r : Reply) (files : Option (Table limit (Object F))) :
    Option (Process limit F) :=
  if r.res < 0 then some p else files.map fun files => { p with files := files }

/-- What a descriptor argument of a call refers to. -/
def Process.file (p : Process limit F) (fd : Int) : Option (Object F) :=
  if fd < 0 then none else (p.files.entry fd.toNat).map Entry.file

/-- The program an `execveat` executes: the file of a descriptor, or that of a path. -/
def Process.program (p : Process limit F) (dirfd : Int) (path : List UInt8) : Option (Object F) :=
  if path = [] then p.file dirfd else some (.opened path O_RDONLY)

/-- What the kernel does for a process with its answer to a call; `none` is an answer it
does not give. `close_range` of all descriptors does not fail. -/
def serve (p : Process limit F) : Event → Option (Process limit F)
  | (.openat path flags, r) | (.openat2 path flags, r) =>
      p.afterFiles r (p.files.alloc r.res.toNat ⟨.opened path flags, flags &&& O_CLOEXEC != 0⟩)
  | (.memfdCreate flags, r) =>
      p.afterFiles r (p.files.alloc r.res.toNat ⟨.memory, flags &&& 1 != 0⟩)
  | (.close fd, r) => p.afterFiles r ((p.file fd).map fun _ => p.files.close fd.toNat)
  | (.closeRange first last _, r) =>
      if r.res < 0 then none else p.afterFiles r (some (p.files.closeRange first last))
  | (.dup3 old new, r) =>
      p.afterFiles r (if new < 0 then none else (p.file old).bind fun _ => p.files.dup old.toNat new.toNat)
  | (.copyFileRange fdIn fdOut _, r) =>
      if r.res < 0 then some p else if (p.file fdIn).isSome && (p.file fdOut).isSome then some p
      else none
  | (.clone3 _ _, r) => some { p with isChild := p.isChild || decide (r.res = 0) }
  | (.sigprocmask, r) => if r.res < 0 then some p else some { p with blocked := 0 }
  | (.execveat dirfd path _ envp _, r) =>
      if r.res < 0 then some p
      else (p.program dirfd path).map fun image =>
        ⟨p.files.exec, p.blocked, envp, some image, p.isChild⟩
  | _ => some p

/-- Calls that leave the process as it is, whatever they return. -/
def Passive (e : Event) : Prop :=
  ∀ {limit : Nat} {F : Type} (p : Process limit F), serve p e = some p

theorem passive_writes : Writes Passive := fun _ _ _ _ _ => rfl

theorem passive_waits (pid : Int) (r : Reply) : Passive (.waitid pid, r) := fun _ => rfl

/-- The console as standard input, output and error. -/
def stdio (F : Type) : List (Entry (Object F)) :=
  [⟨.opened (ascii "/dev/console") O_RDONLY, false⟩,
    ⟨.opened (ascii "/dev/console") (O_APPEND ||| O_WRONLY), false⟩,
    ⟨.opened (ascii "/dev/console") (O_APPEND ||| O_WRONLY), false⟩]

def memfd (F : Type) : Entry (Object F) := ⟨.memory, false⟩

/-- Nothing but the console, no blocked signal and no environment, unless the program was
copied to memory: that copy it finds open behind the console. -/
def StartsClean (p : Process limit F) : Prop :=
  p.blocked = 0 ∧ p.envp = [] ∧
    (p.image = some (.opened (ascii "/busybox") O_RDONLY) ∧ p.files.Names (stdio F) ∨
      p.image = some .memory ∧ p.files.Names (stdio F ++ [memfd F]))

def RunsInit (p : Process limit F) : Prop := p.image = none

def RunsChild (p : Process limit F) : Prop := p.image = none ∧ p.isChild = true

/-- A child with these descriptors that has executed nothing yet. -/
def Runs (entries : List (Entry (Object F))) (p : Process limit F) : Prop :=
  RunsChild p ∧ p.files.Names entries

/-- Only a child executes anything. -/
def Checked (_ : Stop) (p : Process limit F) : Prop :=
  p.image ≠ none → p.isChild = true ∧ StartsClean p

theorem runsInit_checked (e : Stop) (p : Process limit F) (runs : RunsInit p) : Checked e p :=
  fun executed => absurd runs executed

theorem afterFiles_done {p p' : Process limit F} (succeeds : 0 ≤ r.res)
    (served : p.afterFiles r files = some p') : ∃ t, files = some t ∧ p' = { p with files := t } := by
  rw [Process.afterFiles, if_neg (by omega), Option.map_eq_some_iff] at served
  obtain ⟨t, found, same⟩ := served
  exact ⟨t, found, same.symm⟩

/-- A call that fails does nothing. -/
theorem serve_failed {p p' : Process limit F} (failed : r.res < 0)
    (served : serve p (call, r) = some p') : p' = p := by
  have parent : ¬ r.res = 0 := by omega
  cases call <;> simp_all [serve, Process.afterFiles, eq_comm (b := p')]

/-- A process of init that has made no process and only opened files since. -/
structure Continues (before p : Process limit F) : Prop where
  image : p.image = none
  blocked : p.blocked = before.blocked
  envp : p.envp = before.envp
  isChild : p.isChild = before.isChild
  files : ∀ fd e, before.files.entry fd = some e → p.files.entry fd = some e

theorem Continues.refl {p : Process limit F} (runs : RunsInit p) : Continues p p :=
  ⟨runs, rfl, rfl, rfl, fun _ _ => id⟩

theorem Continues.trans {p q t : Process limit F} (first : Continues p q) (later : Continues q t) :
    Continues p t where
  image := later.image
  blocked := later.blocked.trans first.blocked
  envp := later.envp.trans first.envp
  isChild := later.isChild.trans first.isChild
  files fd e open_ := later.files fd e (first.files fd e open_)

/-- Calls that may open a file and do nothing else. -/
def Harmless (limit : Nat) (F : Type) (e : Event) : Prop :=
  ∀ before p p' : Process limit F, Continues before p → serve p e = some p' → Continues before p'

theorem passive_harmless (passive : Passive e) : Harmless limit F e := by
  intro before p p' holds served
  cases (passive p).symm.trans served
  exact holds

/-- A new descriptor takes no place that is taken. -/
theorem opens_continues {before p p' : Process limit F} (holds : Continues before p)
    (served : p.afterFiles r (p.files.alloc r.res.toNat e) = some p') : Continues before p' := by
  by_cases failed : r.res < 0
  · rw [Process.afterFiles, if_pos failed] at served
    cases served
    exact holds
  · obtain ⟨t, opened, rfl⟩ := afterFiles_done (Int.not_lt.mp failed) served
    obtain ⟨free, -, inside, rfl⟩ := Table.alloc_eq_some.mp opened
    refine ⟨holds.image, holds.blocked, holds.envp, holds.isChild, fun fd e' taken => ?_⟩
    have stays := holds.files fd e' taken
    have other : fd ≠ r.res.toNat := by
      rintro rfl
      cases free.symm.trans stays
    exact (Function.update_of_ne other _ _).trans stays

theorem plain_harmless : Plain (Harmless limit F) where
  writes _ _ := passive_harmless fun _ => rfl
  reads _ _ := passive_harmless fun _ => rfl
  opens _ _ _ _ _ _ holds served := opens_continues holds served
  opens2 _ _ _ _ _ _ holds served := opens_continues holds served
  lists _ _ := passive_harmless fun _ => rfl
  times _ := passive_harmless fun _ => rfl
  informs _ := passive_harmless fun _ => rfl

end Kernel

section Child
variable {limit : Nat} {F : Type} {env : Env} {pre : Process limit F → Prop}
  (runs : ∀ p, pre p → RunsInit p)
include runs

theorem framed {m : Proc α} (emits : Emits (fun _ => True) Passive m) :
    Triple serve pre m (fun _ => pre) Checked := by
  refine .frame emits ?_ fun e p before => runsInit_checked e p (runs p before)
  intro p event p' passive before served
  rw [passive] at served
  cases served
  exact before

theorem checked {post : Reply → Process limit F → Prop} (line : String)
    (succeeds : ∀ p r p', pre p → 0 ≤ r.res → serve p (call, r) = some p' → post r p') :
    Triple serve pre (syscheck env line call) post Checked := by
  refine syscheck_triple env line passive_writes ?_ runsInit_checked ?_ succeeds ?_
  · intro p event p' passive failed served
    rw [passive] at served
    cases served
    exact failed
  · exact fun p before => runsInit_checked _ p (runs p before)
  · intro p r p' before negative served
    rw [serve_failed negative served]
    exact runs p before

end Child

section Console
variable {limit : Nat} {F : Type} {env : Env} {entries : List (Entry (Object F))}

theorem runsChild_runsInit (p : Process limit F) (runs : RunsChild p) : RunsInit p := runs.1

theorem runs_runsInit (p : Process limit F) (runs : Runs entries p) : RunsInit p := runs.1.1

/-- An opened file takes the descriptor behind the others. -/
theorem opens_triple (line : String) (path : List UInt8) (flags : Nat)
    (call : Call) (opens : call = .openat path flags ∨ call = .openat2 path flags) :
    Triple serve (Runs entries) (syscheck env line call)
      (fun r p => r.res.toNat = entries.length ∧
        Runs (entries ++ [⟨.opened path flags, flags &&& O_CLOEXEC != 0⟩]) (p : Process limit F))
      Checked := by
  refine checked runs_runsInit line ?_
  rintro p r p' ⟨image, names⟩ succeeds served
  have opened : p.afterFiles r
      (p.files.alloc r.res.toNat ⟨.opened path flags, flags &&& O_CLOEXEC != 0⟩) = some p' := by
    rcases opens with rfl | rfl <;> exact served
  obtain ⟨t, room, rfl⟩ := afterFiles_done succeeds opened
  obtain ⟨lowest, names⟩ := names.alloc room
  exact ⟨lowest, image, names⟩

variable (ints : limit ≤ 2 ^ 31)
include ints

theorem openConsole_triple (inLine outLine dupLine : String) :
    Triple serve RunsChild (openConsole env inLine outLine dupLine)
      (fun _ p => Runs (stdio F) (p : Process limit F)) Checked := by
  have closes : Triple serve RunsChild closeAllFiles
      (fun _ p => Runs [] (p : Process limit F)) Checked := by
    refine .bind (M := fun _ p => Runs [] p) (syscall_triple ?_ ?_) fun _ => .pure fun _ => id
    · intro p r p' before served
      simp only [serve, Option.ite_none_left_eq_some] at served
      obtain ⟨positive, served⟩ := served
      obtain ⟨t, closed, rfl⟩ := afterFiles_done (Int.not_lt.mp positive) served
      cases closed
      exact ⟨before, Table.closeRange_names _ (by omega)⟩
    · exact fun p before => runsInit_checked _ p before.1
  refine .bind closes fun _ => ?_
  refine .bind (opens_triple inLine _ _ _ (.inl rfl)) fun input => ?_
  refine .bind ((opens_triple outLine _ _ _ (.inl rfl)).strengthen fun p reached => reached.2)
    fun output => ?_
  refine .bind (M := fun _ => Runs (stdio F)) ?_ fun _ => .pure fun _ => id
  refine checked (fun p reached => reached.2.1.1) dupLine ?_
  rintro p r p' ⟨second, image, names⟩ succeeds served
  obtain ⟨t, copied, rfl⟩ := afterFiles_done succeeds served
  rw [if_neg (by decide)] at copied
  obtain ⟨-, -, copied⟩ := Option.bind_eq_some_iff.mp copied
  rw [second] at copied
  obtain ⟨e, found, names⟩ := names.dup copied
  cases found
  exact ⟨image, names⟩

omit ints in
theorem unblocks_triple {pre : Process limit F → Prop} (runs : ∀ p, pre p → RunsInit p)
    (blind : ∀ p mask, pre p → pre { p with blocked := mask }) (line : String) :
    Triple serve pre (syscheck env line .sigprocmask) (fun _ p => pre p ∧ p.blocked = 0) Checked := by
  refine checked runs line ?_
  intro p r p' before succeeds served
  rw [serve, if_neg (by omega)] at served
  cases served
  exact ⟨blind p 0 before, rfl⟩

omit ints in
/-- The child is executed, or reports the failure and goes on. -/
theorem executes_triple {pre : Process limit F → Prop} (runs : ∀ p, pre p → RunsChild p)
    (dirfd : Int) (path : List UInt8) (args : List Arg) (flags : Nat)
    (cleanly : ∀ p image, pre p → p.program dirfd path = some image →
      StartsClean (⟨p.files.exec, p.blocked, [], some image, p.isChild⟩ : Process limit F)) :
    Triple serve pre (do
      let execres ← execveat dirfd path args flags
      writeErr (ascii "execveat returned ") execres.res) (fun _ => RunsChild) Checked := by
  refine .bind (M := fun _ => RunsChild) ?_ fun _ =>
    framed runsChild_runsInit (writeErr_emits passive_writes _ _)
  have executing : ∀ p, pre p → RunsInit p := fun p before => (runs p before).1
  refine .bind (framed executing (loadArgs_emits _)) fun argv => ?_
  refine .bind (M := fun r p => if r.res < 0 then RunsChild p else p.isChild = true ∧ StartsClean p)
    (syscall_triple ?_ fun p before => runsInit_checked _ p (executing p before)) fun reply => ?_
  · intro p r p' before served
    split
    · rename_i failed
      rw [serve_failed failed served]
      exact runs p before
    · rename_i done
      rw [serve, if_neg done, Option.map_eq_some_iff] at served
      obtain ⟨image, program, rfl⟩ := served
      exact ⟨(runs p before).2, cleanly p image before program⟩
  · split
    · exact .pure fun _ => id
    · exact .stop fun _ clean _ => clean

theorem execBusybox_triple (args : List Arg) :
    Triple serve RunsChild (execBusybox env args)
      (fun _ p => RunsChild (p : Process limit F)) Checked := by
  refine .bind (openConsole_triple ints _ _ _) fun _ => ?_
  refine .bind (unblocks_triple runs_runsInit (fun _ _ => id) _) fun _ => ?_
  refine executes_triple (fun p before => before.1.1) _ _ _ _ ?_
  rintro p image ⟨⟨-, names⟩, unblocked⟩ program
  cases program
  refine ⟨unblocked, rfl, .inl ⟨rfl, ?_⟩⟩
  exact Table.Names.exec (m := []) (by rwa [List.append_nil]) (by simp [stdio]) (by simp)

/-- What the child of `memrun` holds while it copies: the memfd, unless there was no
descriptor for it, and the file it copies from. -/
def Copying (memfd_res : Int) (file : Entry (Object F)) (p : Process limit F) : Prop :=
  file.cloexec = true ∧
    (memfd_res < 0 ∧ Runs (stdio F ++ [file]) p ∨
      memfd_res = 3 ∧ Runs (stdio F ++ [memfd F, file]) p)

theorem execMemrun_triple (path : Nat) (args : List Arg) :
    Triple serve RunsChild (execMemrun env path args)
      (fun _ p => RunsChild (p : Process limit F)) Checked := by
  refine .bind (openConsole_triple ints _ _ _) fun _ => ?_
  refine .bind (M := fun r p => r.res < 0 ∧ Runs (stdio F) p ∨
    r.res = 3 ∧ Runs (stdio F ++ [memfd F]) p) (syscall_triple ?_ ?_) fun created => ?_
  · rintro p r p' ⟨image, names⟩ served
    by_cases failed : r.res < 0
    · rw [serve_failed failed served]
      exact .inl ⟨failed, image, names⟩
    · obtain ⟨t, room, rfl⟩ := afterFiles_done (Int.not_lt.mp failed) served
      obtain ⟨lowest, names⟩ := names.alloc room
      have third : r.res.toNat = 3 := lowest
      exact .inr ⟨by omega, image, names⟩
  · exact fun p before => runsInit_checked _ p before.1.1
  have running : ∀ p : Process limit F, (created.res < 0 ∧ Runs (stdio F) p ∨
      created.res = 3 ∧ Runs (stdio F ++ [memfd F]) p) → RunsInit p := by
    rintro p (⟨-, child, -⟩ | ⟨-, child, -⟩) <;> exact child.1
  refine .bind (framed running (loadString_emits _)) fun name => ?_
  refine .bind (M := fun _ => Copying created.res ⟨.opened name O_CLOEXEC, true⟩)
    (checked running _ ?_) fun infd => ?_
  · rintro p r p' holds succeeds served
    obtain ⟨t, room, rfl⟩ := afterFiles_done succeeds served
    rcases holds with ⟨failed, image, names⟩ | ⟨third, image, names⟩
    · exact ⟨rfl, .inl ⟨failed, image, (names.alloc room).2⟩⟩
    · exact ⟨rfl, .inr ⟨third, image, (names.alloc room).2⟩⟩
  have copying : ∀ p : Process limit F,
      Copying created.res ⟨.opened name O_CLOEXEC, true⟩ p → RunsInit p := by
    rintro p ⟨-, ⟨-, child, -⟩ | ⟨-, child, -⟩⟩ <;> exact child.1
  refine .bind (M := fun _ => Copying created.res ⟨.opened name O_CLOEXEC, true⟩)
    (checked copying _ ?_) fun stats => ?_
  · intro p r p' holds _ served
    cases served
    exact holds
  -- A copy into a descriptor that is not there fails.
  refine .bind (M := fun _ p => created.res = 3 ∧
    Runs (stdio F ++ [memfd F, ⟨.opened name O_CLOEXEC, true⟩]) p) (checked copying _ ?_) fun _ => ?_
  · rintro p r p' ⟨-, holds⟩ succeeds served
    rw [serve, if_neg (by omega), Option.ite_none_right_eq_some] at served
    obtain ⟨opened, same⟩ := served
    cases same
    rcases holds with ⟨failed, -⟩ | holds
    · simp [Process.file, failed] at opened
    · exact holds
  refine .bind (unblocks_triple (fun p holds => holds.2.1.1) (fun _ _ => id) _) fun _ => ?_
  refine executes_triple (fun p holds => holds.1.2.1) _ _ _ _ ?_
  rintro p image ⟨⟨third, -, names⟩, unblocked⟩ program
  have memory : p.program created.res [] = some .memory := by
    rw [third]
    simp [Process.program, Process.file, names 3, stdio, memfd]
  cases memory.symm.trans program
  refine ⟨unblocked, rfl, .inr ⟨rfl, ?_⟩⟩
  refine Table.Names.exec (m := [⟨.opened name O_CLOEXEC, true⟩]) ?_ ?_ ?_
  · rwa [List.append_assoc]
  · simp [stdio, memfd]
  · simp

end Console

section Commands
variable {limit : Nat} {F : Type} {env : Env}

/-- The command comes back in a child, or in a process it has left as it was. -/
def Returns (before p : Process limit F) : Prop := RunsChild p ∨ Continues before p

/-- Whatever a process of init executes, a child executes, and it starts clean. -/
def Launches (before : Process limit F) (m : Proc Unit) : Prop :=
  Triple serve (Continues before) m (fun _ => Returns before) Checked

/-- Both sides of `clone3` start out with the same attributes. -/
theorem forks_launches {before : Process limit F} {parent child error : Reply → Proc Unit}
    (parents : ∀ tid, Emits (fun _ => True) Passive (parent tid))
    (children : ∀ tid, Triple serve (RunsChild : Process limit F → Prop) (child tid)
      (fun _ => RunsChild) Checked)
    (errors : ∀ tid, Emits (fun _ => True) Passive (error tid)) :
    Launches before (do
      let tid ← syscall (.clone3 0 SIGCHLD)
      if 0 < tid.res then parent tid else if tid.res = 0 then child tid else error tid) := by
  have goesOn : ∀ (tid : Reply) (p' : Process limit F), tid.res ≠ 0 →
      (∃ p, Continues before p ∧ serve p (.clone3 0 SIGCHLD, tid) = some p') →
      Continues before p' := by
    rintro tid p' other ⟨p, holds, served⟩
    cases served
    exact ⟨holds.image, holds.blocked, holds.envp, by simp [other, holds.isChild], holds.files⟩
  have parented : ∀ {m : Proc Unit} (tid : Reply), tid.res ≠ 0 →
      Emits (fun _ => True) Passive m → Triple serve
        (fun p' => ∃ p, Continues before p ∧ serve p (.clone3 0 SIGCHLD, tid) = some p') m
        (fun _ => Returns before) Checked := by
    intro m tid other emits
    have contract : Triple serve (Continues before) m (fun _ => Continues before) Checked :=
      framed (fun p holds => holds.image) emits
    exact (contract.strengthen fun p' => goesOn tid p' other).weaken fun _ _ => .inr
  apply clone_triple fun p holds => runsInit_checked _ p holds.image
  · exact fun tid positive => parented tid (by omega) (parents tid)
  · intro tid zero
    refine ((children tid).strengthen ?_).weaken fun _ _ => .inl
    rintro p' ⟨p, holds, served⟩
    cases served
    exact ⟨holds.image, by simp [zero]⟩
  · exact fun tid negative => parented tid (by omega) (errors tid)

variable (ints : limit ≤ 2 ^ 31) {before : Process limit F}
include ints

theorem memrunFile_launches (path next : Nat) : Launches before (memrunFile env path next) := by
  refine forks_launches (fun _ => memrunParent_emits passive_writes passive_waits _ _)
    (fun _ => ?_) fun _ => writeErr_emits passive_writes _ _
  refine .bind (framed runsChild_runsInit (storeArg_emits _ _ _)) fun _ => ?_
  refine .bind (framed runsChild_runsInit ?_) fun _ => execMemrun_triple ints _ _
  exact fillArgs_writes passive_writes all_stores _ _ _ _

theorem busybox_launches (command : Nat) (found : Option Nat) : Launches before (do
    let tid ← syscall (.clone3 0 SIGCHLD)
    if 0 < tid.res then busyboxParent env tid.res
    else if tid.res = 0 then busyboxChild env command found
    else writeErr (ascii "clone3 error") tid.res) := by
  refine forks_launches (fun _ => busyboxParent_emits passive_writes passive_waits _ _)
    (fun _ => ?_) fun _ => writeErr_emits passive_writes _ _
  refine .bind (framed runsChild_runsInit (storeArg_emits _ _ _)) fun _ => ?_
  refine .bind (framed runsChild_runsInit (storeArg_emits _ _ _)) fun _ => ?_
  refine .bind (framed runsChild_runsInit ?_) fun _ => execBusybox_triple ints _
  exact fillArgs_writes passive_writes all_stores _ _ _ _

theorem processCommand_launches (args : Nat) : Launches before (processCommand env args) :=
  processCommand_triple plain_harmless (fun p _ p' harmless holds => harmless before p p' holds)
    (fun _ p holds => runsInit_checked _ p holds.image) (fun _ => .inr) (memrunFile_launches ints)
    (busybox_launches ints) args

end Commands

/-- Whatever line a command has, whatever init has open, blocks or passes on, and however
the kernel answers, where closing all descriptors does not fail, only a child ends up
executing a program, and the program finds the console as its three standard descriptors,
no signal blocked and no environment. It holds no other descriptor, but for the memfd that
a program run from memory is a copy in; and `process_command` only returns in a process
that still runs init. -/
theorem programs_start_clean {limit : Nat} {F : Type} (ints : limit ≤ 2 ^ 31) (env : Env)
    (args : Nat) (line : List UInt8) (answers : List Reply) (p p' : Process limit F)
    (init : p.image = none)
    (served : Transition.run serve p (processCommand env args ⟨line, answers, []⟩).2.asked = some p') :
    (p'.image ≠ none → p'.isChild = true ∧ StartsClean p') ∧
    ((processCommand env args ⟨line, answers, []⟩).1 = .ok () → p'.image = none) := by
  have contract : Launches p (processCommand env args) := processCommand_launches ints args
  have ended := contract.ends rfl (.refl init) served
  revert ended
  cases (processCommand env args ⟨line, answers, []⟩).1 with
  | error e => exact fun clean => ⟨clean, by simp⟩
  | ok done =>
    intro returned
    have runs : p'.image = none := by
      rcases returned with child | parent
      · exact child.1
      · exact parent.image
    exact ⟨fun executed => absurd runs executed, fun _ => runs⟩

/-- A program run from memory, by an init that has a file open as 0, 1 and 7. -/
theorem programs_start_clean_memrun : ∃ (p p' : Process 1024 Nat),
    p.blocked = 5 ∧ p.files.entry 7 = some ⟨.inherited 70, false⟩ ∧
    p'.image = some .memory ∧ StartsClean p' ∧ p'.files.entry 7 = none := by
  let files : Table 1024 (Object Nat) :=
    ⟨fun fd => if fd = 0 ∨ fd = 1 ∨ fd = 7 then some ⟨.inherited (10 * fd), false⟩ else none,
      fun fd above => if_neg (by omega)⟩
  let p : Process 1024 Nat := ⟨files, 5, [ascii "HOME=/"], none, false⟩
  let answers : List Reply := [⟨0, [], []⟩, ⟨0, [], []⟩, ⟨0, [], []⟩, ⟨1, [], []⟩, ⟨2, [], []⟩,
    ⟨3, [], []⟩, ⟨4, [], []⟩, ⟨0, [], [2]⟩, ⟨2, [], []⟩, ⟨0, [], []⟩, ⟨0, [], []⟩]
  have evaluated : (Transition.run serve p (processCommand ⟨[], [], []⟩ 0
      ⟨ascii "memrun x" ++ [0], answers, []⟩).2.asked).map
        (fun p' => (p'.image, p'.files.entry 7)) = some (some .memory, none) := by
    decide +kernel
  obtain ⟨p', served, same⟩ := Option.map_eq_some_iff.mp evaluated
  obtain ⟨image, closed⟩ := Prod.mk.inj same
  have clean := (programs_start_clean (by decide) _ _ _ _ p p' rfl served).1 (by simp [image])
  exact ⟨p, p', rfl, rfl, image, clean.2, closed⟩

/-- A command that returns in a child has no next state: it is another process. -/
def step {limit : Nat} {F : Type} (env : Env) (p : Process limit F) (call : Invocation) :
    Option (Process limit F) :=
  match (call.run env).1 with
  | .ok () => (Transition.run serve p (call.run env).2.asked).filter fun after => !after.isChild
  | .error _ => none

theorem step_continues {limit : Nat} {F : Type} (ints : limit ≤ 2 ^ 31) {p p' : Process limit F}
    (init : p.image = none) (stepped : step env p call = some p') : Continues p p' := by
  simp only [step] at stepped
  split at stepped
  · rename_i returned
    obtain ⟨served, parent⟩ := Option.filter_eq_some_iff.mp stepped
    have contract : Launches p (processCommand env 0) := processCommand_launches ints 0
    have ended := contract.ends (w := ⟨call.line ++ 0 :: call.behind, call.answers, []⟩) rfl (.refl init) served
    change Outcome _ _ _ (call.run env).1 at ended
    rw [returned] at ended
    rcases ended with child | continues
    · rw [child.2] at parent
      cases parent
    · exact continues
  · contradiction

/-- Through any run of commands every descriptor of init goes on referring to what it
referred to, and init goes on running with the same blocked signals and environment. -/
theorem init_undisturbed {limit : Nat} {F : Type} (ints : limit ≤ 2 ^ 31) {env : Env}
    {p p' : Process limit F} (ran : Transition.run (step env) p calls = some p')
    (init : p.image = none) : p'.image = none ∧ p'.blocked = p.blocked ∧ p'.envp = p.envp ∧
      p'.isChild = p.isChild ∧ ∀ fd e, p.files.entry fd = some e → p'.files.entry fd = some e := by
  have continues : Continues p p' := by
    refine Transition.run_invariant (P := Continues p) ?_ (.refl init) ran
    intro s call t holds stepped
    exact holds.trans (step_continues ints holds.image stepped)
  exact ⟨continues.image, continues.blocked, continues.envp, continues.isChild, continues.files⟩

/-- A program of busybox, a file that is not there, a file that stays open, and a directory. -/
theorem init_undisturbed_four : ∃ (calls : List Invocation) (p p' : Process 1024 Nat),
    calls.length = 4 ∧ Transition.run (step ⟨[], [], []⟩) p calls = some p' ∧
    p.files.entry 0 = some ⟨.inherited 70, false⟩ ∧
    p'.files.entry 0 = some ⟨.inherited 70, false⟩ ∧ p'.blocked = 5 := by
  let w : Reply := ⟨1, [], []⟩
  let p : Process 1024 Nat := ⟨Table.empty.set 0 (by decide) ⟨.inherited 70, false⟩, 5, [], none, false⟩
  let calls : List Invocation :=
    [⟨ascii "true", [], [⟨7, [], []⟩, ⟨0, [], [7, 0]⟩, w, w, w], by decide⟩,
      ⟨ascii "cat x", [], [⟨-2, [], []⟩, w, w, w, w], by decide⟩,
      ⟨ascii "cat x", [], [⟨1, [], []⟩, ⟨0, [], []⟩], by decide⟩,
      ⟨ascii "ls", [], [⟨2, [], []⟩, ⟨0, [], []⟩], by decide⟩]
  have returned : (Transition.run (step ⟨[], [], []⟩) p calls).isSome = true := by decide +kernel
  obtain ⟨p', ran⟩ := Option.isSome_iff_exists.mp returned
  obtain ⟨-, blocked, -, -, files⟩ := init_undisturbed (by decide) ran rfl
  exact ⟨calls, p, p', rfl, ran, rfl, files 0 _ rfl, blocked⟩

end MinLinux.Command.Inheritance
