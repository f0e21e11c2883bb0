import Mathlib.Data.Finset.Basic
import MinLinux.Transition
import MinLinux.Command.Meaning

/-! The descriptors of init over sequences of commands. Every command that returns is
one step on the set of descriptors that were opened and not closed; `ls` and `cat`
leave the one they opened behind. -/
namespace MinLinux.Command.Descriptors
open Text Dialog

/-- One call of `process_command`: a line, what the buffer holds behind its NUL, and
what the kernel answers to the system calls made. -/
structure Invocation where
  line : List UInt8
  behind : List UInt8
  answers : List Reply
  clean : 0 ∉ line

def Invocation.run (env : Env) (call : Invocation) : Except Stop Unit × World :=
  processCommand env 0 ⟨call.line ++ 0 :: call.behind, call.answers, []⟩

/-- What a system call does to the descriptors of the process that makes it. The
kernel never hands out a descriptor that is open. -/
def use (fds : Finset Int) : Event → Option (Finset Int)
  | (.openat _ _, r) | (.openat2 _ _, r) =>
      if r.res < 0 then some fds
      else if r.res ∈ fds then none
      else some (insert r.res fds)
  | (.close fd, _) => some (fds.erase fd)
  | (.closeRange first last _, r) =>
      if r.res < 0 then some fds
      else some (fds.filter fun fd => fd < first ∨ last < fd)
  | _ => some fds

/-- The system calls made by the parent. -/
def parentEvents (events : List Event) : List Event := events.takeWhile fun e => !inChild e

/-- A call that does not return has no next state. -/
def step (env : Env) (fds : Finset Int) (call : Invocation) : Option (Finset Int) :=
  match (call.run env).1 with
  | .ok () => Transition.run use fds (parentEvents (call.run env).2.asked)
  | .error _ => none

/-- A listing, or a `cat` of a path, whose open succeeds. -/
def Invocation.leaks (call : Invocation) : Bool :=
  match tokens call.line with
  | [] => false
  | name :: others =>
      (name == ascii "ls" || (name == ascii "cat" && !others.isEmpty)) &&
        call.answers.head?.any fun r => decide (0 ≤ r.res)

/-- System calls without effect on any set of descriptors. -/
def Neutral (e : Event) : Prop := ∀ fds, use fds e = some fds

theorem run_neutral (neutral : ∀ e ∈ events, Neutral e) (fds : Finset Int) :
    Transition.run use fds events = some fds := by
  induction events with
  | nil => rfl
  | cons e rest ih =>
    have later := ih fun e member => neutral e (List.mem_cons_of_mem _ member)
    exact Transition.run_cons_some.mpr ⟨fds, neutral e List.mem_cons_self fds, later⟩

theorem writes_neutral : Writes Neutral := fun _ _ _ => rfl

/-- What an invocation does to the descriptors of the parent: nothing, or one
descriptor opened first and never closed. -/
inductive Outcome (events : List Event) : Bool → Prop where
  | kept : (∀ e ∈ parentEvents events, Neutral e) → Outcome events false
  | opened : events = (call, r) :: more → (∀ fds, use fds (call, r) =
      if r.res ∈ fds then none else some (insert r.res fds)) → inChild (call, r) = false →
      (∀ e ∈ more, Neutral e) → Outcome events true

theorem Outcome.of_neutral (neutral : ∀ e ∈ events, Neutral e) : Outcome events false :=
  .kept fun e member => neutral e (List.takeWhile_subset _ member)

section Commands
variable {w : World} {env : Env}

/-- A command that asks only neutral questions. -/
theorem Outcome.of_emits {m : Proc Unit} (emits : Emits (fun _ => True) Neutral m)
    (fresh : w.asked = []) : Outcome (m w).2.asked false := by
  obtain ⟨-, new, asked, neutral⟩ := emits w trivial
  rw [asked, fresh, List.nil_append]
  exact .of_neutral neutral

/-- A command whose first question opens a descriptor and that never closes one. -/
theorem Outcome.of_open (call : Call) (fresh : w.asked = [])
    (starves : w.answers = [] → events = [])
    (opens : ∀ r later, w.answers = r :: later →
      ∃ more, events = w.asked ++ (call, r) :: more ∧ ∀ e ∈ more, Neutral e)
    (used : ∀ r fds, use fds (call, r) =
      if r.res < 0 then some fds else if r.res ∈ fds then none else some (insert r.res fds))
    (parent : ∀ r, inChild (call, r) = false) :
    Outcome events (w.answers.head?.any fun r => decide (0 ≤ r.res)) := by
  cases answers : w.answers with
  | nil =>
    rw [starves answers]
    exact .kept fun e member => by cases member
  | cons r later =>
    obtain ⟨more, same, neutral⟩ := opens r later answers
    rw [fresh, List.nil_append] at same
    simp only [List.head?_cons, Option.any_some]
    by_cases ok : 0 ≤ r.res
    · rw [decide_eq_true ok]
      refine .opened same ?_ (parent r) neutral
      intro fds
      rw [used, if_neg (by omega)]
    · rw [decide_eq_false ok, same]
      refine .of_neutral (List.forall_mem_cons.mpr ⟨?_, neutral⟩)
      intro fds
      rw [used, if_pos (by omega)]

theorem dirlist_outcome (points : Points w.state ptr path) (fresh : w.asked = []) :
    Outcome (dirlist ptr w).2.asked (w.answers.head?.any fun r => decide (0 ≤ r.res)) := by
  refine .of_open (.openat path (O_RDONLY ||| O_NOATIME ||| O_DIRECTORY)) fresh ?_ ?_ ?_ ?_
  · intro none
    rw [dirlist, bind_ok _ (loadString_spec points), syscall, bind_error _ (by rw [ask, none])]
    exact fresh
  · intro r later answers
    exact dirlist_opens writes_neutral (fun _ _ _ => rfl) points answers
  · intro r fds
    rfl
  · intro r
    rfl

theorem catFile_outcome (points : Points w.state ptr path) (fresh : w.asked = []) :
    Outcome (catFile ptr w).2.asked (w.answers.head?.any fun r => decide (0 ≤ r.res)) := by
  refine .of_open (.openat2 path (O_RDONLY ||| O_NOATIME)) fresh ?_ ?_ ?_ ?_
  · intro none
    rw [catFile, bind_ok _ (loadString_spec points), syscall, bind_error _ (by rw [ask, none])]
    exact fresh
  · intro r later answers
    exact catFile_opens writes_neutral (fun _ _ _ => rfl) points answers
  · intro r fds
    rfl
  · intro r
    rfl

/-- A command that forks: what the child does is not the parent's doing. -/
theorem Outcome.of_clone {f : Reply → Proc Unit} (fresh : w.asked = [])
    (parent : ∀ tid : Reply, tid.res ≠ 0 → Emits (fun _ => True) Neutral (f tid))
    (child : ∀ tid : Reply, tid.res = 0 → Emits (fun _ => True) (fun _ => True) (f tid)) :
    Outcome ((syscall (.clone3 0 SIGCHLD) >>= f) w).2.asked false := by
  cases answers : w.answers with
  | nil =>
    rw [syscall, bind_error _ (by rw [ask, answers]), fresh]
    exact .kept fun e member => by cases member
  | cons tid later =>
    rw [bind_ok _ (syscall_ok answers _)]
    by_cases zero : tid.res = 0
    · obtain ⟨-, new, asked, -⟩ := child tid zero
        { w with answers := later, asked := w.asked ++ [(.clone3 0 SIGCHLD, tid)] } trivial
      rw [asked, fresh]
      refine .kept fun e member => ?_
      simp [parentEvents, inChild, zero] at member
    · obtain ⟨-, new, asked, neutral⟩ := parent tid zero
        { w with answers := later, asked := w.asked ++ [(.clone3 0 SIGCHLD, tid)] } trivial
      rw [asked, fresh]
      exact .of_neutral (List.forall_mem_cons.mpr ⟨fun _ => rfl, neutral⟩)

theorem busybox_outcome (at_next : StringAt w.state next rest) (fresh : w.asked = []) :
    Outcome (busybox env command next w).2.asked false := by
  obtain ⟨found, ran, -, -⟩ := findArg_remaining at_next
  rw [busybox, bind_ok _ ran]
  refine .of_clone fresh ?_ ?_
  · intro tid nonzero
    rw [if_neg nonzero]
    split
    · exact busyboxParent_emits writes_neutral (fun _ _ _ => rfl) _ _
    · exact writeErr_emits writes_neutral _ _
  · intro tid zero
    rw [if_neg (by omega), if_pos zero]
    exact busyboxChild_emits all_ordinary all_stores _ _ _

theorem memrunFile_outcome (path next : Nat) (fresh : w.asked = []) :
    Outcome (memrunFile env path next w).2.asked false := by
  refine .of_clone fresh ?_ ?_
  · intro tid nonzero
    rw [if_neg nonzero]
    split
    · exact memrunParent_emits writes_neutral (fun _ _ _ => rfl) _ _
    · exact writeErr_emits writes_neutral _ _
  · intro tid zero
    rw [if_neg (by omega), if_pos zero]
    exact memrunChild_emits all_ordinary all_stores _ _ _

theorem cmdMemrun_outcome (at_next : StringAt w.state next rest) (fresh : w.asked = []) :
    Outcome (cmdMemrun env next w).2.asked false := by
  cases split : tokens rest with
  | nil =>
    rw [cmdMemrun, bind_ok _ (findArg_none at_next split)]
    exact .of_emits (writeStr_emits writes_neutral _) fresh
  | cons path others =>
    obtain ⟨p, q, mem, arg, -⟩ := nextArg at_next split
    rw [cmdMemrun, bind_ok _ arg.found]
    dsimp only
    rw [bind_ok _ arg.terminated]
    exact memrunFile_outcome p q fresh

/-- Each builtin, given the string behind its name. -/
theorem builtin_outcome (env : Env) (at_next : StringAt w.state next rest) (fresh : w.asked = [])
    (builtin : Builtin) :
    Outcome (builtin.func env next w).2.asked
      ((builtin == .ls || (builtin == .cat && !(tokens rest).isEmpty)) &&
        w.answers.head?.any fun r => decide (0 ≤ r.res)) := by
  cases builtin with
  | time => exact .of_emits (cmdTime_emits writes_neutral (fun _ _ => rfl) env) fresh
  | env => exact .of_emits (cmdEnv_emits writes_neutral env) fresh
  | exit => exact .of_emits (.stop _) fresh
  | usage => exact .of_emits (cmdUsage_emits writes_neutral (fun _ _ => rfl) env) fresh
  | memrun => exact cmdMemrun_outcome at_next fresh
  | ls =>
    change Outcome (cmdLs next w).2.asked (w.answers.head?.any _)
    cases split : tokens rest with
    | nil =>
      rw [cmdLs_root at_next split]
      exact dirlist_outcome (show Points w.state (.literal (ascii "/")) _ from rfl) fresh
    | cons path others =>
      obtain ⟨dir, mem, at_dir, same⟩ := cmdLs_path at_next split
      rw [same]
      exact dirlist_outcome (w := { w with state := mem })
        (show Points mem (.line dir) path from at_dir) fresh
  | cat =>
    change Outcome (cmdCat next w).2.asked (!(tokens rest).isEmpty && w.answers.head?.any _)
    cases split : tokens rest with
    | nil =>
      rw [cmdCat_usage at_next split]
      exact .of_emits (writeStr_emits writes_neutral _) fresh
    | cons path others =>
      obtain ⟨p, mem, at_path, same⟩ := cmdCat_path at_next split
      rw [same]
      exact catFile_outcome (w := { w with state := mem })
        (show Points mem (.line p) path from at_path) fresh

end Commands

/-- The names of the table are distinct. -/
theorem lookup_openers (listed : builtins.lookup name = some builtin) :
    (builtin == .ls) = (name == ascii "ls") ∧ (builtin == .cat) = (name == ascii "cat") := by
  simp only [builtins, List.lookup_cons, List.lookup_nil] at listed
  repeat' split at listed
  all_goals cases listed
  all_goals
    rename_i same
    rw [eq_of_beq same]
    decide

theorem lookup_none (unlisted : builtins.lookup name = none) :
    (name == ascii "ls") = false ∧ (name == ascii "cat") = false := by
  constructor
  · apply beq_false_of_ne
    rintro rfl
    exact absurd unlisted (by decide)
  · apply beq_false_of_ne
    rintro rfl
    exact absurd unlisted (by decide)

theorem invocation_outcome (env : Env) (call : Invocation) :
    Outcome (call.run env).2.asked call.leaks := by
  have terminated : StringAt (call.line ++ 0 :: call.behind) 0 call.line :=
    cstring_append call.clean call.behind
  rw [Invocation.leaks, Invocation.run]
  cases split : tokens call.line with
  | nil =>
    rw [processCommand_blank terminated split]
    exact .of_neutral fun e member => by cases member
  | cons name others =>
    obtain ⟨prog, next, mem, arg, left, same⟩ := processCommand_eq env
      (w := ⟨call.line ++ 0 :: call.behind, call.answers, []⟩) terminated split
    rw [same]
    cases listed : builtins.lookup name with
    | none =>
      obtain ⟨ls, cat⟩ := lookup_none listed
      simp only [ls, cat, Bool.false_and, Bool.or_self]
      exact busybox_outcome (w := ⟨mem, call.answers, []⟩) arg.at_rest rfl
    | some builtin =>
      obtain ⟨ls, cat⟩ := lookup_openers listed
      have outcome := builtin_outcome env (w := ⟨mem, call.answers, []⟩) arg.at_rest rfl builtin
      rw [ls, cat, left] at outcome
      exact outcome

/-- One returning call changes the set exactly when it leaks. -/
theorem step_keeps (stepped : step env fds call = some fds') :
    fds' = fds ↔ call.leaks = false := by
  have outcome := invocation_outcome env call
  generalize call.leaks = leaks at outcome ⊢
  simp only [step] at stepped
  split at stepped
  · cases outcome with
    | kept neutral =>
      rw [run_neutral neutral] at stepped
      exact ⟨fun _ => rfl, fun _ => (Option.some.inj stepped).symm⟩
    | opened same used parent neutral =>
      rw [same, parentEvents, List.takeWhile_cons_of_pos (by simp [parent])] at stepped
      obtain ⟨mid, first, later⟩ := Transition.run_cons_some.mp stepped
      rw [used] at first
      split at first
      · cases first
      · rename_i fresh
        cases first
        rw [run_neutral fun e member => neutral e (List.takeWhile_subset _ member)] at later
        cases later
        simp [fresh]
  · contradiction

/-- In a run of commands that return, the descriptors of the parent are the same after
every command as before it exactly when no command lists a directory or prints a file
that it managed to open. -/
theorem descriptors_kept_iff (ran : Transition.run (step env) fds calls = some final) :
    (∀ before call after s s', calls = before ++ call :: after →
      Transition.run (step env) fds before = some s → step env s call = some s' → s' = s) ↔
    ∀ call ∈ calls, call.leaks = false := by
  constructor
  · intro kept call member
    obtain ⟨before, after, rfl⟩ := List.append_of_mem member
    obtain ⟨s, first, later⟩ := Transition.run_append.mp ran
    obtain ⟨s', stepped, -⟩ := Transition.run_cons_some.mp later
    exact (step_keeps stepped).mp (kept before call after s s' rfl first stepped)
  · rintro clean before call after s s' rfl - stepped
    exact (step_keeps stepped).mpr (clean call (by simp))

/-- A file that cannot be opened, then one command of busybox. -/
theorem descriptors_kept_two :
    ∃ calls : List Invocation, calls.length = 2 ∧
      Transition.run (step ⟨[], [], []⟩) {0, 1} calls = some {0, 1} ∧
      ∀ before call after s s', calls = before ++ call :: after →
        Transition.run (step ⟨[], [], []⟩) {0, 1} before = some s →
        step ⟨[], [], []⟩ s call = some s' → s' = s := by
  have ran : Transition.run (step ⟨[], [], []⟩) {0, 1}
      [⟨ascii "cat x", [], [⟨-2, [], []⟩, ⟨18, [], []⟩, ⟨2, [], []⟩, ⟨2, [], []⟩, ⟨1, [], []⟩],
          by decide⟩,
        ⟨ascii "true", [], [⟨7, [], []⟩, ⟨0, [], [7, 0]⟩, ⟨27, [], []⟩, ⟨1, [], []⟩, ⟨1, [], []⟩],
          by decide⟩] = some {0, 1} := by decide
  exact ⟨_, rfl, ran, (descriptors_kept_iff ran).mpr (by decide)⟩

/-- The descriptor opened by `cat` or by `ls` is still open when the command is over. -/
theorem descriptors_leak :
    ¬ ∀ (env : Env) (fds fds' : Finset Int) (call : Invocation),
      step env fds call = some fds' → fds' = fds := by
  intro kept
  have leaked : step ⟨[], [], []⟩ {0, 1} ⟨ascii "cat x", [], [⟨3, [], []⟩, ⟨0, [], []⟩], by decide⟩ =
      some {0, 1, 3} := by decide
  exact absurd (kept _ _ _ _ leaked) (by decide)

end MinLinux.Command.Descriptors
