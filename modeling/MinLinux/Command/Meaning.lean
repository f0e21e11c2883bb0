import MinLinux.Command.Effects
import MinLinux.Command.Parsing

/-! The meaning of a command line: its tokens decide which command runs, and on what.
-/
namespace MinLinux.Command
open Text Dialog

section Arguments
variable {w : World} {s : List UInt8} {p : Nat}

theorem findArg_none (at_p : StringAt w.state p s) (blank : tokens s = []) :
    findArg p w = (.ok none, w) := by
  rcases findArg_spec at_p with ⟨-, found⟩ | ⟨q, c, rest, -, -, -, nonblank, same, -⟩
  · exact found
  · rw [blank, tokens_arg nonblank] at same
    cases same

/-- The next argument, found and then terminated. -/
structure NextArg (w : World) (p q r : Nat) (mem arg rest : List UInt8) : Prop where
  found : findArg p w = (.ok (some q), w)
  terminated : terminateArg q w = (.ok r, { w with state := mem })
  behind : p ≤ q
  at_arg : StringAt mem q arg
  at_rest : StringAt mem r rest
  apart : q + arg.length < r ∨ rest = []
  kept : ∀ p₀ s₀, StringAt w.state p₀ s₀ → p₀ + s₀.length < q → StringAt mem p₀ s₀

theorem nextArg (at_p : StringAt w.state p s) (split : tokens s = arg :: others) :
    ∃ q r mem, NextArg w p q r mem arg (restLine s) ∧ tokens (restLine s) = others := by
  rcases findArg_spec at_p with
    ⟨none, -⟩ | ⟨q, c, tail, behind, starts, at_q, nonblank, same, found⟩
  · rw [none] at split
    cases split
  · rw [same, tokens_arg nonblank] at split
    obtain ⟨first, others⟩ := List.cons.inj split
    obtain ⟨r, mem, terminated, at_q', at_r, apart, kept⟩ := terminateArg_spec at_q
    rw [first] at at_q' apart
    rw [restLine, starts]
    exact ⟨q, r, mem, ⟨found, terminated, behind, at_q', at_r, apart,
      fun p₀ s₀ at_ before => kept p₀ s₀ at_ (.inl before)⟩, others⟩

/-- `find_arg` hands all tokens that are left to `fill_args`. -/
theorem findArg_remaining (at_p : StringAt w.state p s) :
    ∃ next, findArg p w = (.ok next, w) ∧ Remaining w.state next (tokens s) ∧
      ∀ q ∈ next, p ≤ q ∧ s ≠ [] := by
  rcases findArg_spec at_p with ⟨none, found⟩ | ⟨q, c, rest, behind, -, at_q, nonblank, same, found⟩
  · refine ⟨.none, found, ?_, by simp⟩
    rw [none]
    exact .none
  · refine ⟨.some q, found, ?_, ?_⟩
    · rw [same, tokens_arg nonblank]
      exact .some at_q
    · rintro q' ⟨⟩
      refine ⟨behind, ?_⟩
      rintro rfl
      rw [tokens_arg nonblank] at same
      cases same

end Arguments

section Dispatch
variable {env : Env} {w : World}

theorem builtins_clean : ∀ entry ∈ builtins, 0 ∉ entry.1 := by decide

theorem runCommand_eq (at_prog : StringAt w.state prog name)
    (clean : ∀ entry ∈ table, 0 ∉ entry.1) :
    runCommand env prog next table w =
      match table.lookup name with
      | some builtin => builtin.func env next w
      | none => busybox env prog next w := by
  induction table with
  | nil => rfl
  | cons entry others ih =>
    obtain ⟨entryName, builtin⟩ := entry
    have compared := streq_spec at_prog (clean _ List.mem_cons_self)
    have later := ih fun entry member => clean entry (List.mem_cons_of_mem _ member)
    rw [runCommand, bind_ok _ compared, List.lookup_cons]
    by_cases same : name = entryName
    · simp [same]
    · simp only [same, decide_false, Bool.false_eq_true, if_false, beq_false_of_ne same]
      exact later

theorem processCommand_blank (at_args : StringAt w.state args line) (blank : tokens line = []) :
    processCommand env args w = (.ok (), w) := by
  rw [processCommand, bind_ok _ (findArg_none at_args blank)]
  rfl

/-- With a token, the table decides; the name is a string of its own by then. -/
theorem processCommand_eq (env : Env) (at_args : StringAt w.state args line)
    (split : tokens line = name :: others) :
    ∃ prog next mem, NextArg w args prog next mem name (restLine line) ∧
      tokens (restLine line) = others ∧ processCommand env args w =
        match builtins.lookup name with
        | some builtin => builtin.func env next { w with state := mem }
        | none => busybox env prog next { w with state := mem } := by
  obtain ⟨prog, next, mem, arg, left⟩ := nextArg at_args split
  refine ⟨prog, next, mem, arg, left, ?_⟩
  rw [processCommand, bind_ok _ arg.found]
  simp only
  rw [bind_ok _ arg.terminated]
  exact runCommand_eq (w := { w with state := mem }) arg.at_arg builtins_clean

end Dispatch

section Paths
variable {w : World}

theorem cmdLs_root (at_next : StringAt w.state next rest) (alone : tokens rest = []) :
    cmdLs next w = dirlist (.literal (ascii "/")) w := by
  rw [cmdLs, bind_ok _ (findArg_none at_next alone)]

theorem cmdLs_path (at_next : StringAt w.state next rest) (split : tokens rest = path :: others) :
    ∃ dir mem, StringAt mem dir path ∧
      cmdLs next w = dirlist (.line dir) { w with state := mem } := by
  obtain ⟨dir, _, mem, arg, -⟩ := nextArg at_next split
  refine ⟨dir, mem, arg.at_arg, ?_⟩
  rw [cmdLs, bind_ok _ arg.found]
  simp only
  rw [bind_ok _ arg.terminated]

theorem cmdCat_usage (at_next : StringAt w.state next rest) (alone : tokens rest = []) :
    cmdCat next w = writeStr (ascii "No file path specified.\n") w := by
  rw [cmdCat, bind_ok _ (findArg_none at_next alone)]

theorem cmdCat_path (at_next : StringAt w.state next rest) (split : tokens rest = path :: others) :
    ∃ p mem, StringAt mem p path ∧
      cmdCat next w = catFile (.line p) { w with state := mem } := by
  obtain ⟨p, _, mem, arg, -⟩ := nextArg at_next split
  refine ⟨p, mem, arg.at_arg, ?_⟩
  rw [cmdCat, bind_ok _ arg.found]
  simp only
  rw [bind_ok _ arg.terminated]

/-- `dirlist` opens the directory before anything else. -/
theorem dirlist_opens {P : Event → Prop} (writes : Writes P)
    (lists : ∀ fd r, P (.getdents64 fd 1024, r)) (points : Points w.state ptr path)
    (answers : w.answers = reply :: later) :
    ∃ new, (dirlist ptr w).2.asked =
        w.asked ++ (.openat path (O_RDONLY ||| O_NOATIME ||| O_DIRECTORY), reply) :: new ∧
      ∀ e ∈ new, P e := by
  rw [dirlist, bind_ok _ (loadString_spec points)]
  refine Emits.ask_first (I := fun _ => True) (fun rootdir => ?_) answers trivial
  split
  · refine .bind (writeStr_emits writes _) fun _ => .bind (loadString_emits _) fun _ => ?_
    refine .bind (writeStr_emits writes _) fun _ => .bind (writeStr_emits writes _) fun _ => ?_
    exact .bind (writeInt_emits writes _) fun _ => writeStr_emits writes _
  · exact .bind .budget fun _ => dirlistLoop_emits writes lists _ _

theorem catFile_opens {P : Event → Prop} (writes : Writes P)
    (reads : ∀ fd r, P (.read fd 1024, r)) (points : Points w.state ptr path)
    (answers : w.answers = reply :: later) :
    ∃ new, (catFile ptr w).2.asked =
        w.asked ++ (.openat2 path (O_RDONLY ||| O_NOATIME), reply) :: new ∧ ∀ e ∈ new, P e := by
  rw [catFile, bind_ok _ (loadString_spec points)]
  refine Emits.ask_first (I := fun _ => True) (fun fd => ?_) answers trivial
  split
  · exact writeErr_emits writes _ _
  · refine .bind .budget fun _ => .bind (catLoop_emits writes reads _ _ _) fun result => ?_
    split
    · exact writeErr_emits writes _ _
    · exact .pure _

end Paths

section Child
variable {w : World} {env : Env}

theorem syscall_ok (answers : w.answers = reply :: later) (call : Call) :
    syscall call w =
      (.ok reply, { w with answers := later, asked := w.asked ++ [(call, reply)] }) :=
  ask_returns.mpr ⟨later, answers, rfl⟩

theorem syscheck_ok (answers : w.answers = reply :: later) (succeeds : 0 ≤ reply.res)
    (line : String) (call : Call) :
    syscheck env line call w =
      (.ok reply, { w with answers := later, asked := w.asked ++ [(call, reply)] }) := by
  have asked : Dialog.ask Stop.starved call w = _ := syscall_ok answers call
  rw [syscheck, Macro.syscheck, bind_ok _ asked, if_neg (by omega)]
  rfl

/-- The child builds the whole vector in memory that still holds every token. -/
theorem busyboxChild_eq (env : Env) (at_command : StringAt w.state command name)
    (remaining : Remaining w.state next others)
    (before : ∀ q ∈ next, command + name.length < q) (few : others.length < 30) :
    ∃ mem args, busyboxChild env command next w = execBusybox env args { w with state := mem } ∧
      ∀ v : World, v.state = mem →
        loadArgs args v = (.ok (ascii "/busybox" :: name :: others), v) := by
  have prepared : Prepared w.state next [.literal (ascii "/busybox"), .line command]
      [ascii "/busybox", name] := by
    refine .cons ⟨rfl, nofun⟩ (.cons ⟨at_command, ?_⟩ .nil)
    rintro p ⟨⟩ q found
    exact .inl (before q found)
  obtain ⟨mem, args, filled, -, loads⟩ := fillArgs_vector prepared remaining (Nat.succ_pos 1)
    (show 2 + others.length < 32 by omega)
  exact ⟨mem, args, bind_ok _ filled, loads⟩

theorem execveat_emits {P : Event → Prop} (loads : ∀ v : World, v.state = mem → loadArgs args v = (.ok argv, v))
    (execs : ∀ r, P (.execveat dirfd path argv [] flags, r)) :
    Emits (· = mem) P (execveat dirfd path args flags) := by
  intro v same
  rw [execveat, bind_ok _ (loads v same)]
  refine Emits.bind (I := (· = mem)) (.ask _ _ execs) (fun reply => ?_) v same
  split
  · exact .pure _
  · exact .stop _

/-- Every `execveat` is one of `/busybox` with the given vector. -/
def ExecsBusybox (argv : List (List UInt8)) (e : Event) : Prop :=
  ∀ dirfd path argv' envp flags, e.1 = .execveat dirfd path argv' envp flags →
    dirfd = AT_FDCWD ∧ path = ascii "/busybox" ∧ argv' = argv

theorem execsBusybox_other
    (other : ∀ dirfd path argv' envp flags, call ≠ .execveat dirfd path argv' envp flags) :
    ExecsBusybox argv (call, r) := by
  intro dirfd path argv' envp flags same
  exact absurd same (other dirfd path argv' envp flags)

theorem execsBusybox_writes : Writes (ExecsBusybox argv) := fun _ _ => execsBusybox_other nofun

theorem execBusybox_emits (loads : ∀ v : World, v.state = mem → loadArgs args v = (.ok argv, v)) :
    Emits (· = mem) (ExecsBusybox argv) (execBusybox env args) := by
  refine .bind (openConsole_emits execsBusybox_writes ?_ ?_ ?_ _ _ _ _) fun _ => ?_
  · exact fun _ => execsBusybox_other nofun
  · exact fun _ _ _ => execsBusybox_other nofun
  · exact fun _ _ => execsBusybox_other nofun
  refine .bind (syscheck_emits execsBusybox_writes _ _ _ fun _ => execsBusybox_other nofun)
    fun _ => ?_
  refine .bind (execveat_emits loads ?_) fun _ => writeErr_emits execsBusybox_writes _ _
  rintro _ _ _ _ _ _ ⟨⟩
  exact ⟨rfl, rfl, rfl⟩

/-- The calls the child of `busybox` makes, and those in front of its `execveat`. -/
def busyboxCalls (stdout : Int) : List Call :=
  [.closeRange 0 0xFFFFFFFF 0, .openat (ascii "/dev/console") O_RDONLY,
    .openat (ascii "/dev/console") (O_APPEND ||| O_WRONLY), .dup3 stdout 2, .sigprocmask]

theorem openConsole_ok (answers : w.answers = closed :: input :: output :: dup :: later)
    (inputOk : 0 ≤ input.res) (outputOk : 0 ≤ output.res) (dupOk : 0 ≤ dup.res)
    (inLine outLine dupLine : String) :
    openConsole env inLine outLine dupLine w =
      (.ok (), { w with
        answers := later
        asked := w.asked ++ [(.closeRange 0 0xFFFFFFFF 0, closed),
          (.openat (ascii "/dev/console") O_RDONLY, input),
          (.openat (ascii "/dev/console") (O_APPEND ||| O_WRONLY), output),
          (.dup3 output.res 2, dup)] }) := by
  rw [openConsole, closeAllFiles, bind_assoc, bind_ok _ (syscall_ok answers _), bind_ok _ (pure_apply _ _),
    bind_ok _ (syscheck_ok rfl inputOk _ _), bind_ok _ (syscheck_ok rfl outputOk _ _),
    bind_ok _ (syscheck_ok rfl dupOk _ _)]
  simp

/-- The last step of a child, whose conversation goes on only if `execveat` fails. -/
theorem report_reaches (loads : loadArgs args w = (.ok argv, w)) (answers : w.answers = exec :: later)
    (dirfd : Int) (path : List UInt8) (flags : Nat) :
    ∃ new, ((execveat dirfd path args flags >>= fun execres =>
        writeErr (ascii "execveat returned ") execres.res) w).2.asked =
      w.asked ++ (.execveat dirfd path argv [] flags, exec) :: new := by
  have any : Writes fun _ => True := fun _ _ => trivial
  have finishes : ∀ reply, Emits (fun _ => True) (fun _ => True)
      ((if reply.res < 0 then pure reply else stop .execed : Proc Reply) >>=
        fun execres => writeErr (ascii "execveat returned ") execres.res) := by
    intro reply
    refine .bind ?_ fun execres => writeErr_emits any _ _
    split
    · exact .pure _
    · exact .stop _
  obtain ⟨new, asked, -⟩ := Emits.ask_first (e := .starved)
    (q := Call.execveat dirfd path argv [] flags) finishes answers trivial
  refine ⟨new, Eq.trans ?_ asked⟩
  rw [execveat, bind_assoc, bind_ok _ loads, bind_assoc]
  rfl

/-- Once those calls succeed the child reaches `execveat` with its vector. -/
theorem execBusybox_reaches (loads : ∀ v : World, v.state = w.state → loadArgs args v = (.ok argv, v))
    (answers : w.answers = closed :: input :: output :: dup :: mask :: exec :: later)
    (inputOk : 0 ≤ input.res) (outputOk : 0 ≤ output.res) (dupOk : 0 ≤ dup.res)
    (maskOk : 0 ≤ mask.res) :
    ∃ new, (execBusybox env args w).2.asked =
      w.asked ++ (busyboxCalls output.res).zip [closed, input, output, dup, mask] ++
        (.execveat AT_FDCWD (ascii "/busybox") argv [] 0, exec) :: new := by
  rw [execBusybox, bind_ok _ (openConsole_ok answers inputOk outputOk dupOk _ _ _),
    bind_ok _ (syscheck_ok rfl maskOk _ _), List.append_assoc]
  exact report_reaches (w := ⟨w.state, exec :: later, _⟩) (loads _ rfl) rfl _ _ _

section Busybox
variable (at_command : StringAt w.state command name) (at_next : StringAt w.state next rest)
  (apart : command + name.length < next ∨ rest = []) (few : (tokens rest).length < 30)
include at_command at_next apart few

/-- What `busybox` finds before it forks, and what its child makes of it. -/
theorem busybox_prepares (env : Env) :
    ∃ found, findArg next w = (.ok found, w) ∧ ∀ v : World, v.state = w.state →
      ∃ mem args, busyboxChild env command found v = execBusybox env args { v with state := mem } ∧
        ∀ u : World, u.state = mem →
          loadArgs args u = (.ok (ascii "/busybox" :: name :: tokens rest), u) := by
  obtain ⟨found, ran, remaining, beyond⟩ := findArg_remaining at_next
  have before : ∀ q ∈ found, command + name.length < q := by
    intro q member
    obtain ⟨behind, nonempty⟩ := beyond q member
    rcases apart with apart | empty
    · omega
    · exact absurd empty nonempty
  refine ⟨found, ran, ?_⟩
  intro v same
  rw [← same] at at_command remaining
  exact busyboxChild_eq env at_command remaining before few

/-- Whatever the answers, nothing but `/busybox` on the tokens is executed. -/
theorem busybox_only_execs (env : Env) :
    ∃ new, (busybox env command next w).2.asked = w.asked ++ new ∧
      ∀ e ∈ new, ExecsBusybox (ascii "/busybox" :: name :: tokens rest) e := by
  obtain ⟨found, ran, prepared⟩ := busybox_prepares at_command at_next apart few env
  refine Asks.after ran rfl (Asks.ask_bind (fun _ => execsBusybox_other nofun) ?_)
  intro tid v left
  obtain ⟨mem, args, same, loads⟩ := prepared v left
  split
  · exact (busyboxParent_emits (I := fun _ => True) execsBusybox_writes
      (fun _ _ => execsBusybox_other nofun) _ _).asks trivial
  · split
    · rw [Asks, same]
      exact (execBusybox_emits loads).asks rfl
    · exact (writeErr_emits (I := fun _ => True) execsBusybox_writes _ _).asks trivial

/-- A child whose calls succeed reaches its `execveat`. -/
theorem busybox_reaches (env : Env)
    (answers : w.answers = clone :: closed :: input :: output :: dup :: mask :: exec :: later)
    (child : clone.res = 0) (inputOk : 0 ≤ input.res) (outputOk : 0 ≤ output.res)
    (dupOk : 0 ≤ dup.res) (maskOk : 0 ≤ mask.res) :
    ∃ new, (busybox env command next w).2.asked =
      w.asked ++ (.clone3 0 SIGCHLD :: busyboxCalls output.res).zip
        [clone, closed, input, output, dup, mask] ++
      (.execveat AT_FDCWD (ascii "/busybox") (ascii "/busybox" :: name :: tokens rest) [] 0, exec) ::
        new := by
  obtain ⟨found, ran, prepared⟩ := busybox_prepares at_command at_next apart few env
  let v : World :=
    { w with
      answers := closed :: input :: output :: dup :: mask :: exec :: later
      asked := w.asked ++ [(.clone3 0 SIGCHLD, clone)] }
  obtain ⟨mem, args, same, loads⟩ := prepared v rfl
  obtain ⟨new, reached⟩ := execBusybox_reaches (w := { v with state := mem }) loads rfl
    inputOk outputOk dupOk maskOk
  refine ⟨new, ?_⟩
  rw [busybox, bind_ok _ ran, bind_ok _ (syscall_ok answers _), if_neg (by omega), if_pos child]
  refine (congrArg (fun out => out.2.asked) same).trans (reached.trans ?_)
  simp [v]

end Busybox
end Child

section Paths
variable {w : World}

theorem cmdLs_meaning (at_next : StringAt w.state next rest) (left : tokens rest = others) :
    ∃ dir mem, cmdLs next w = dirlist dir { w with state := mem } ∧
      Points mem dir (others.headD (ascii "/")) ∧ (dir = .literal (ascii "/") ↔ others = []) ∧
      ∀ reply later, w.answers = reply :: later →
        ∃ new, (cmdLs next w).2.asked = w.asked ++
          (.openat (others.headD (ascii "/")) (O_RDONLY ||| O_NOATIME ||| O_DIRECTORY), reply) ::
            new := by
  cases others with
  | nil =>
    have run := cmdLs_root at_next left
    refine ⟨_, w.state, run, rfl, by simp, ?_⟩
    intro reply later answers
    obtain ⟨new, asked, -⟩ := dirlist_opens all_ordinary.writes (fun _ _ => trivial)
      (show Points w.state (.literal (ascii "/")) _ from rfl) answers
    exact ⟨new, by rw [run, asked]; rfl⟩
  | cons path more =>
    obtain ⟨dir, mem, at_dir, run⟩ := cmdLs_path at_next left
    refine ⟨_, mem, run, at_dir, by simp, ?_⟩
    intro reply later answers
    obtain ⟨new, asked, -⟩ := dirlist_opens (w := { w with state := mem }) all_ordinary.writes
      (fun _ _ => trivial) (show Points mem (.line dir) path from at_dir) answers
    exact ⟨new, by rw [run, asked]; rfl⟩

theorem cmdCat_meaning (at_next : StringAt w.state next rest) (left : tokens rest = others) :
    (others = [] → cmdCat next w = writeStr (ascii "No file path specified.\n") w) ∧
    ∀ path more, others = path :: more → ∃ p mem,
      cmdCat next w = catFile (.line p) { w with state := mem } ∧ StringAt mem p path ∧
      ∀ reply later, w.answers = reply :: later →
        ∃ new, (cmdCat next w).2.asked =
          w.asked ++ (.openat2 path (O_RDONLY ||| O_NOATIME), reply) :: new := by
  constructor
  · rintro rfl
    exact cmdCat_usage at_next left
  · rintro path more rfl
    obtain ⟨p, mem, at_path, run⟩ := cmdCat_path at_next left
    refine ⟨p, mem, run, at_path, ?_⟩
    intro reply later answers
    obtain ⟨new, asked, -⟩ := catFile_opens (w := { w with state := mem }) all_ordinary.writes
      (fun _ _ => trivial) (show Points mem (.line p) path from at_path) answers
    exact ⟨new, by rw [run, asked]⟩

end Paths

/-- What a command line does. Without a token nothing runs; a first token in the table
of builtins runs that builtin, `ls` and `cat` on the second token; any other runs
`/busybox` on all tokens. Each string is read when the system call is made, after all
the NULs have been written. -/
theorem command_line_meaning (env : Env) (w : World) (terminated : StringAt w.state args line) :
    (tokens line = [] → processCommand env args w = (.ok (), w)) ∧
    ∀ name others, tokens line = name :: others →
      (∀ builtin, builtins.lookup name = some builtin →
        ∃ next mem, processCommand env args w = builtin.func env next { w with state := mem }) ∧
      (name = ascii "ls" → ∃ dir mem,
        processCommand env args w = dirlist dir { w with state := mem } ∧
        Points mem dir (others.headD (ascii "/")) ∧ (dir = .literal (ascii "/") ↔ others = []) ∧
        ∀ reply later, w.answers = reply :: later →
          ∃ new, (processCommand env args w).2.asked = w.asked ++
            (.openat (others.headD (ascii "/")) (O_RDONLY ||| O_NOATIME ||| O_DIRECTORY), reply) ::
              new) ∧
      (name = ascii "cat" →
        (others = [] → ∃ mem, processCommand env args w =
          writeStr (ascii "No file path specified.\n") { w with state := mem }) ∧
        ∀ path more, others = path :: more → ∃ p mem,
          processCommand env args w = catFile (.line p) { w with state := mem } ∧
          StringAt mem p path ∧
          ∀ reply later, w.answers = reply :: later →
            ∃ new, (processCommand env args w).2.asked =
              w.asked ++ (.openat2 path (O_RDONLY ||| O_NOATIME), reply) :: new) ∧
      (builtins.lookup name = none → (tokens line).length ≤ 30 →
        (∃ new, (processCommand env args w).2.asked = w.asked ++ new ∧
          ∀ e ∈ new, ExecsBusybox (ascii "/busybox" :: tokens line) e) ∧
        ∀ clone closed input output dup mask exec later,
          w.answers = clone :: closed :: input :: output :: dup :: mask :: exec :: later →
          clone.res = 0 → 0 ≤ input.res → 0 ≤ output.res → 0 ≤ dup.res → 0 ≤ mask.res →
          ∃ new, (processCommand env args w).2.asked =
            w.asked ++ (.clone3 0 SIGCHLD :: busyboxCalls output.res).zip
              [clone, closed, input, output, dup, mask] ++
            (.execveat AT_FDCWD (ascii "/busybox") (ascii "/busybox" :: tokens line) [] 0, exec) ::
              new) := by
  refine ⟨processCommand_blank terminated, ?_⟩
  intro name others split
  obtain ⟨prog, next, mem, arg, left, same⟩ := processCommand_eq env terminated split
  refine ⟨?_, ?_, ?_, ?_⟩
  · intro builtin listed
    rw [listed] at same
    exact ⟨next, mem, same⟩
  · rintro rfl
    obtain ⟨dir, mem', run, at_dir, root, opens⟩ :=
      cmdLs_meaning (w := { w with state := mem }) arg.at_rest left
    rw [same]
    exact ⟨dir, mem', run, at_dir, root, opens⟩
  · rintro rfl
    obtain ⟨usage, file⟩ := cmdCat_meaning (w := { w with state := mem }) arg.at_rest left
    rw [same]
    exact ⟨fun none => ⟨mem, usage none⟩, file⟩
  · intro unlisted few
    rw [unlisted] at same
    rw [split, List.length_cons] at few
    rw [split, same, ← left]
    have few' : (tokens (restLine line)).length < 30 := by
      rw [left]
      omega
    refine ⟨busybox_only_execs (w := { w with state := mem }) arg.at_arg arg.at_rest arg.apart few'
      env, ?_⟩
    intro clone closed input output dup mask exec later answers child inputOk outputOk dupOk maskOk
    exact busybox_reaches (w := { w with state := mem }) arg.at_arg arg.at_rest arg.apart few' env
      answers child inputOk outputOk dupOk maskOk

/-- Blanks of every kind around three tokens, of which none names a builtin. -/
theorem command_line_meaning_rm :
    StringAt (ascii "  rm\t-r  x \t" ++ [0]) 0 (ascii "  rm\t-r  x \t") ∧
    ∃ new, (processCommand ⟨[], [], []⟩ 0 ⟨ascii "  rm\t-r  x \t" ++ [0],
        [⟨0, [], []⟩, ⟨0, [], []⟩, ⟨0, [], []⟩, ⟨1, [], []⟩, ⟨2, [], []⟩, ⟨0, [], []⟩, ⟨-2, [], []⟩],
        []⟩).2.asked =
      (.clone3 0 SIGCHLD :: busyboxCalls 1).zip
        [⟨0, [], []⟩, ⟨0, [], []⟩, ⟨0, [], []⟩, ⟨1, [], []⟩, ⟨2, [], []⟩, ⟨0, [], []⟩] ++
      (.execveat AT_FDCWD (ascii "/busybox")
        [ascii "/busybox", ascii "rm", ascii "-r", ascii "x"] [] 0, ⟨-2, [], []⟩) :: new := by
  have terminated : StringAt (ascii "  rm\t-r  x \t" ++ [0]) 0 (ascii "  rm\t-r  x \t") := rfl
  have split : tokens (ascii "  rm\t-r  x \t") = [ascii "rm", ascii "-r", ascii "x"] := by decide
  obtain ⟨-, named⟩ := command_line_meaning ⟨[], [], []⟩ ⟨ascii "  rm\t-r  x \t" ++ [0],
    [⟨0, [], []⟩, ⟨0, [], []⟩, ⟨0, [], []⟩, ⟨1, [], []⟩, ⟨2, [], []⟩, ⟨0, [], []⟩, ⟨-2, [], []⟩],
    []⟩ terminated
  obtain ⟨-, -, -, other⟩ := named _ _ split
  obtain ⟨-, reached⟩ := other (by decide) (by decide)
  exact ⟨terminated, reached ⟨0, [], []⟩ ⟨0, [], []⟩ ⟨0, [], []⟩ ⟨1, [], []⟩ ⟨2, [], []⟩
    ⟨0, [], []⟩ ⟨-2, [], []⟩ [] rfl rfl (by decide) (by decide) (by decide) (by decide)⟩

end MinLinux.Command
