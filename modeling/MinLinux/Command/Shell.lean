import MinLinux.Mirror
import MinLinux.Command.Vector

/-! A shell without a memory. `process_command` cuts a line up in place, and the
commands read their strings back through pointers; `shell` works on the tokens. From the
outside there is no difference. -/
namespace MinLinux.Command
open Dialog Text

/-- A vector for `execveat` that needs no memory. -/
def literals (argv : List (List UInt8)) : List Arg :=
  (argv.map CharPtr.literal).map .str ++ [.null]

/-- What either side of `clone3` does. -/
def launch (parent : Int → Proc Unit) (child : Proc Unit) : Proc Unit := do
  let tid ← syscall (.clone3 0 SIGCHLD)
  if 0 < tid.res then parent tid.res
  else if tid.res = 0 then child
  else writeErr (ascii "clone3 error") tid.res

/-- A child that needs one slot of its vector for the NULL. -/
def vectored (argv : List (List UInt8)) (child : List Arg → Proc Unit) : Proc Unit :=
  if argv.length < MAX_ARGS then child (literals argv) else stop .overflow

/-- The child of `memrun` with the path at hand. -/
def execImage (env : Env) (path : List UInt8) (args : List Arg) : Proc Unit := do
  openConsole env "174" "175" "176"
  let memfd ← syscall (.memfdCreate 0)
  let infd ← syscheck env "183" (.openat2 path O_CLOEXEC)
  let stats ← syscheck env "187" (.fstatat infd.res [] AT_EMPTY_PATH)
  let _ ← syscheck env "191" (.copyFileRange infd.res memfd.res (stats.fields.getD 0 0))
  let _ ← syscheck env "200" .sigprocmask
  let execres ← execveat memfd.res [] args AT_EMPTY_PATH
  writeErr (ascii "execveat returned ") execres.res

/-- `cat` and `memrun` look at no token but their path. -/
def withPath (others : List (List UInt8)) (use : List UInt8 → Proc Unit) : Proc Unit :=
  match others with
  | [] => writeStr (ascii "No file path specified.\n")
  | path :: _ => use path

/-- What a command line means: its tokens decide, but for the strings that `memrun`
makes of what is behind its path. -/
def shell (env : Env) (line : List UInt8) : Proc Unit :=
  match tokens line with
  | [] => pure ()
  | name :: others =>
      match builtins.lookup name with
      | some .time => cmdTime env
      | some .ls => dirlist (.literal (others.headD (ascii "/")))
      | some .cat => withPath others fun path => catFile (.literal path)
      | some .env => cmdEnv env
      | some .exit => cmdExit
      | some .usage => cmdUsage env
      | some .memrun => withPath others fun path =>
          launch (memrunParent env)
            (vectored (path :: fields (restLine (restLine line))) (execImage env path))
      | none =>
          launch (busyboxParent env)
            (vectored (ascii "/busybox" :: name :: others) (execBusybox env))

section Memoryless

theorem any_stop : ∀ e : Stop, e.regular = true → (fun _ => True) e := fun _ _ => trivial

theorem loadString_literal (s : List UInt8) :
    Blind (fun _ => True) (loadString (.literal s)) := .pure s

theorem loadArgs_blind (argv : List (List UInt8)) :
    Blind (fun _ => True) (loadArgs (literals argv)) := by
  induction argv with
  | nil => exact .pure _
  | cons s rest ih => exact .bind (loadString_literal s) fun _ => .bind ih fun _ => .pure _

theorem dirlist_blind (s : List UInt8) : Blind (fun _ => True) (dirlist (.literal s)) := by
  apply Blind.bind (loadString_literal s)
  intro name
  apply Blind.bind (syscall_blind any_stop _)
  intro rootdir
  split
  · refine .bind (writeStr_blind any_stop _) fun _ => .bind (loadString_literal s) fun _ => ?_
    refine .bind (writeStr_blind any_stop _) fun _ => .bind (writeStr_blind any_stop _) fun _ => ?_
    exact .bind (writeInt_blind any_stop _) fun _ => writeStr_blind any_stop _
  · exact .bind .budget fun _ => dirlistLoop_blind any_stop trivial _ _

theorem catFile_blind (s : List UInt8) : Blind (fun _ => True) (catFile (.literal s)) := by
  apply Blind.bind (loadString_literal s)
  intro name
  apply Blind.bind (syscall_blind any_stop _)
  intro fd
  split
  · exact writeErr_blind any_stop _ _
  · refine .bind .budget fun _ => .bind (catLoop_blind any_stop _ _ _) fun result => ?_
    split
    · exact writeErr_blind any_stop _ _
    · exact .pure _

theorem execveat_blind (dirfd : Int) (path : List UInt8) (argv : List (List UInt8)) (flags : Nat) :
    Blind (fun _ => True) (execveat dirfd path (literals argv) flags) := by
  apply Blind.bind (loadArgs_blind argv)
  intro argv
  apply Blind.bind (syscall_blind any_stop _)
  intro reply
  split
  · exact .pure _
  · exact .stop trivial

theorem execBusybox_blind (env : Env) (argv : List (List UInt8)) :
    Blind (fun _ => True) (execBusybox env (literals argv)) := by
  refine .bind (openConsole_blind any_stop _ _ _ _) fun _ => ?_
  refine .bind (syscheck_blind any_stop _ _ _) fun _ => ?_
  exact .bind (execveat_blind _ _ _ _) fun _ => writeErr_blind any_stop _ _

theorem execImage_blind (env : Env) (path : List UInt8) (argv : List (List UInt8)) :
    Blind (fun _ => True) (execImage env path (literals argv)) := by
  refine .bind (openConsole_blind any_stop _ _ _ _) fun _ => ?_
  refine .bind (syscall_blind any_stop _) fun _ => .bind (syscheck_blind any_stop _ _ _) fun _ => ?_
  refine .bind (syscheck_blind any_stop _ _ _) fun _ => ?_
  refine .bind (syscheck_blind any_stop _ _ _) fun _ => ?_
  refine .bind (syscheck_blind any_stop _ _ _) fun _ => ?_
  exact .bind (execveat_blind _ _ _ _) fun _ => writeErr_blind any_stop _ _

theorem launch_blind {parent : Int → Proc Unit} {child : List Arg → Proc Unit}
    (waits : ∀ tid, Blind (fun _ => True) (parent tid))
    (forked : ∀ argv, Blind (fun _ => True) (child (literals argv))) (argv : List (List UInt8)) :
    Blind (fun _ => True) (launch parent (vectored argv child)) := by
  apply Blind.bind (syscall_blind any_stop _)
  intro tid
  split
  · exact waits _
  · split
    · unfold vectored
      split
      · exact forked argv
      · exact .stop trivial
    · exact writeErr_blind any_stop _ _

theorem withPath_blind {use : List UInt8 → Proc Unit} (uses : ∀ path, Blind (fun _ => True) (use path))
    (others : List (List UInt8)) : Blind (fun _ => True) (withPath others use) := by
  cases others with
  | nil => exact writeStr_blind any_stop _
  | cons path rest => exact uses path

theorem shell_blind (env : Env) (line : List UInt8) : Blind (fun _ => True) (shell env line) := by
  unfold shell
  split
  · exact .pure _
  · split
    · exact cmdTime_blind any_stop env
    · exact dirlist_blind _
    · exact withPath_blind catFile_blind _
    · exact cmdEnv_blind any_stop env
    · exact .stop trivial
    · exact cmdUsage_blind any_stop env
    · apply withPath_blind
      intro path
      exact launch_blind (memrunParent_blind any_stop env) (execImage_blind env path) _
    · exact launch_blind (busyboxParent_blind any_stop env) (execBusybox_blind env) _

end Memoryless

section Strings
variable {w : World}

theorem loadArgs_literals (argv : List (List UInt8)) (w : World) :
    loadArgs (literals argv) w = (.ok argv, w) := by
  refine loadArgs_spec (List.forall₂_map_left_iff.mpr (List.forall₂_same.mpr ?_)) []
  intro s _
  rfl

theorem dirlist_mirrors (points : Points w.state path s) :
    Mirrors (dirlist path) (dirlist (.literal s)) w := by
  apply Mirrors.after (loadString_spec points)
  apply Mirrors.blind (syscall_blind any_stop _)
  intro rootdir v same
  split
  · apply Mirrors.blind (writeStr_blind any_stop _)
    intro _ u same'
    have again : Points u.state path s := by rwa [same', same]
    apply Mirrors.after (loadString_spec again)
    apply Blind.mirrors (A := fun _ => True)
    refine .bind (writeStr_blind any_stop _) fun _ => .bind (writeStr_blind any_stop _) fun _ => ?_
    exact .bind (writeInt_blind any_stop _) fun _ => writeStr_blind any_stop _
  · apply Blind.mirrors (A := fun _ => True)
    exact .bind .budget fun _ => dirlistLoop_blind any_stop trivial _ _

theorem catFile_mirrors (points : Points w.state path s) :
    Mirrors (catFile path) (catFile (.literal s)) w :=
  .after (loadString_spec points) ((catFile_blind s).mirrors w)

end Strings

section Children
variable {w : World} {argv : List (List UInt8)}

theorem execveat_mirrors (loaded : loadArgs args w = (.ok argv, w)) (dirfd : Int)
    (path : List UInt8) (flags : Nat) :
    Mirrors (execveat dirfd path args flags) (execveat dirfd path (literals argv) flags) w := by
  apply Mirrors.after loaded
  intro s
  rw [execveat, bind_ok _ (loadArgs_literals argv _)]
  refine Blind.mirrors (A := fun _ => True) (Blind.bind (syscall_blind any_stop _) ?_) w s
  intro reply
  split
  · exact .pure _
  · exact .stop trivial

theorem reports_mirrors (loaded : loadArgs args w = (.ok argv, w)) (dirfd : Int)
    (path : List UInt8) (flags : Nat) :
    Mirrors (execveat dirfd path args flags >>= fun r => writeErr (ascii "execveat returned ") r.res)
      (execveat dirfd path (literals argv) flags >>= fun r =>
        writeErr (ascii "execveat returned ") r.res) w := by
  apply Mirrors.bind (execveat_mirrors loaded dirfd path flags)
  intro execres v _
  exact (writeErr_blind any_stop _ _).mirrors v

theorem execBusybox_mirrors (env : Env)
    (loads : ∀ v : World, v.state = w.state → loadArgs args v = (.ok argv, v)) :
    Mirrors (execBusybox env args) (execBusybox env (literals argv)) w := by
  apply Mirrors.blind (openConsole_blind any_stop _ _ _ _)
  intro _ v first
  apply Mirrors.blind (syscheck_blind any_stop _ _ _)
  intro _ u second
  exact reports_mirrors (loads u (second.trans first)) _ _ _

theorem execMemrun_mirrors (env : Env) (at_path : StringAt w.state path name)
    (loads : ∀ v : World, v.state = w.state → loadArgs args v = (.ok argv, v)) :
    Mirrors (execMemrun env path args) (execImage env name (literals argv)) w := by
  apply Mirrors.blind (openConsole_blind any_stop _ _ _ _)
  intro _ v first
  apply Mirrors.blind (syscall_blind any_stop _)
  intro memfd v second
  have named : StringAt v.state path name := by rwa [second, first]
  apply Mirrors.after (loadString_line named)
  apply Mirrors.blind (syscheck_blind any_stop _ _ _)
  intro infd v third
  apply Mirrors.blind (syscheck_blind any_stop _ _ _)
  intro stats v fourth
  apply Mirrors.blind (syscheck_blind any_stop _ _ _)
  intro _ v fifth
  apply Mirrors.blind (syscheck_blind any_stop _ _ _)
  intro _ v sixth
  have same := (((sixth.trans fifth).trans fourth).trans third).trans (second.trans first)
  exact reports_mirrors (loads v same) _ _ _

theorem launch_mirrors {A : Stop → Prop} {parent : Int → Proc Unit}
    (waits : ∀ tid, Blind A (parent tid))
    (forked : ∀ v, v.state = w.state → Mirrors child child' v) :
    Mirrors (launch parent child) (launch parent child') w := by
  apply Mirrors.blind (syscall_blind any_stop _)
  intro tid v same
  split
  · exact (waits _).mirrors v
  · split
    · exact forked v same
    · exact (writeErr_blind any_stop _ _).mirrors v

theorem busyboxChild_mirrors (env : Env) (at_command : StringAt w.state command name)
    (remaining : Remaining w.state next strings)
    (before : ∀ q ∈ next, command + name.length < q) :
    Mirrors (busyboxChild env command next)
      (vectored (ascii "/busybox" :: name :: strings) (execBusybox env)) w := by
  unfold vectored
  split
  · rename_i few
    have room : strings.length < 30 := Nat.lt_of_add_lt_add_right (show _ + 2 < 30 + 2 from few)
    obtain ⟨mem, args, same, loads⟩ := busyboxChild_eq env at_command remaining before room
    intro s
    rw [same]
    exact execBusybox_mirrors (w := { w with state := mem }) env loads s
  · rename_i many
    obtain ⟨mem, overflow⟩ := fillArgs_overflow remaining
      (show [Arg.str (.literal (ascii "/busybox")), .str (.line command)].length = 2 from rfl)
      (show 30 = (List.replicate 30 Arg.uninit).length from rfl) (by decide)
      (Nat.le_of_add_le_add_right (show 30 + 2 ≤ _ + 2 from Nat.le_of_not_lt many))
    intro s
    exact congrArg (fun out : Except Stop Unit × World => (out.1, { out.2 with state := s }))
      (bind_error (execBusybox env) overflow).symm

theorem memrunChild_mirrors (env : Env) (at_path : StringAt w.state path name)
    (at_next : StringAt w.state next rest) (apart : path + name.length < next ∨ rest = []) :
    Mirrors (memrunChild env path next) (vectored (name :: fields rest) (execImage env name)) w := by
  unfold vectored
  split
  · rename_i few
    rw [List.length_cons, Nat.add_comm] at few
    obtain ⟨mem, args, same, at_path', loads⟩ := memrunChild_eq env at_path at_next apart few
    intro s
    rw [same]
    exact execMemrun_mirrors (w := { w with state := mem }) env at_path' loads s
  · rename_i many
    rw [List.length_cons, Nat.add_comm] at many
    obtain ⟨mem, overflow⟩ := memrunChild_overflow env path at_next (Nat.le_of_not_lt many)
    intro s
    rw [overflow]
    rfl

theorem busybox_mirrors (env : Env) (at_command : StringAt w.state command name)
    (at_next : StringAt w.state next rest) (apart : command + name.length < next ∨ rest = []) :
    Mirrors (busybox env command next)
      (launch (busyboxParent env)
        (vectored (ascii "/busybox" :: name :: tokens rest) (execBusybox env))) w := by
  obtain ⟨found, ran, remaining, beyond⟩ := findArg_remaining at_next
  apply Mirrors.after ran
  apply launch_mirrors (fun tid => busyboxParent_blind any_stop env tid)
  intro v same
  rw [← same] at at_command remaining
  apply busyboxChild_mirrors env at_command remaining
  intro q member
  obtain ⟨behind, nonempty⟩ := beyond q member
  rcases apart with apart | empty
  · omega
  · exact absurd empty nonempty

theorem memrunFile_mirrors (env : Env) (at_path : StringAt w.state path name)
    (at_next : StringAt w.state next rest) (apart : path + name.length < next ∨ rest = []) :
    Mirrors (memrunFile env path next)
      (launch (memrunParent env) (vectored (name :: fields rest) (execImage env name))) w := by
  apply launch_mirrors (fun tid => memrunParent_blind any_stop env tid)
  intro v same
  rw [← same] at at_path at_next
  exact memrunChild_mirrors env at_path at_next apart

theorem cmdLs_mirrors (at_next : StringAt w.state next rest) :
    Mirrors (cmdLs next) (dirlist (.literal ((tokens rest).headD (ascii "/")))) w := by
  cases split : tokens rest with
  | nil =>
    apply Mirrors.after (findArg_none at_next split)
    exact dirlist_mirrors (show Points w.state (.literal (ascii "/")) _ from rfl)
  | cons path more =>
    obtain ⟨dir, mem, at_dir, same⟩ := cmdLs_path at_next split
    intro s
    rw [same]
    exact dirlist_mirrors (w := { w with state := mem }) (show Points mem (.line dir) _ from at_dir) s

theorem cmdCat_mirrors (at_next : StringAt w.state next rest) :
    Mirrors (cmdCat next) (withPath (tokens rest) fun path => catFile (.literal path)) w := by
  cases split : tokens rest with
  | nil =>
    apply Mirrors.after (findArg_none at_next split)
    exact (writeStr_blind any_stop _).mirrors w
  | cons path more =>
    obtain ⟨p, mem, at_path, same⟩ := cmdCat_path at_next split
    intro s
    rw [same]
    exact catFile_mirrors (w := { w with state := mem }) (show Points mem (.line p) _ from at_path) s

theorem cmdMemrun_mirrors (env : Env) (at_next : StringAt w.state next rest) :
    Mirrors (cmdMemrun env next) (withPath (tokens rest) fun path =>
      launch (memrunParent env)
        (vectored (path :: fields (restLine rest)) (execImage env path))) w := by
  cases split : tokens rest with
  | nil =>
    apply Mirrors.after (findArg_none at_next split)
    exact (writeStr_blind any_stop _).mirrors w
  | cons path more =>
    obtain ⟨p, behind, mem, same, at_path, at_rest, apart, -⟩ := cmdMemrun_file env at_next split
    intro s
    rw [same]
    exact memrunFile_mirrors (w := { w with state := mem }) env at_path at_rest apart s

end Children

theorem processCommand_mirrors (env : Env) (w : World) (terminated : StringAt w.state args line) :
    Mirrors (processCommand env args) (shell env line) w := by
  cases split : tokens line with
  | nil =>
    intro s
    rw [processCommand_blank terminated split, shell, split]
    rfl
  | cons name others =>
    obtain ⟨prog, next, mem, arg, left, same⟩ := processCommand_eq env terminated split
    intro s
    rw [same]
    revert s
    cases listed : builtins.lookup name with
    | none =>
      simp only [shell, split, listed]
      rw [← left]
      exact busybox_mirrors (w := { w with state := mem }) env arg.at_arg arg.at_rest arg.apart
    | some builtin =>
      simp only [shell, split, listed]
      rw [← left]
      cases builtin with
      | time => exact (cmdTime_blind any_stop env).mirrors { w with state := mem }
      | ls => exact cmdLs_mirrors (w := { w with state := mem }) arg.at_rest
      | cat => exact cmdCat_mirrors (w := { w with state := mem }) arg.at_rest
      | env => exact (cmdEnv_blind any_stop env).mirrors { w with state := mem }
      | exit => exact Blind.mirrors (A := fun _ => True) (.stop trivial) { w with state := mem }
      | usage => exact (cmdUsage_blind any_stop env).mirrors { w with state := mem }
      | memrun => exact cmdMemrun_mirrors (w := { w with state := mem }) env arg.at_rest

/-- The shell neither reads nor writes a memory, and for every line, wherever it stands in
whatever memory, `process_command` has its outcome and its conversation. -/
theorem shell_refined (env : Env) (line : List UInt8) :
    Blind (fun _ => True) (shell env line) ∧
    ∀ (args : Nat) (w : World), StringAt w.state args line →
      Mirrors (processCommand env args) (shell env line) w :=
  ⟨shell_blind env line, fun _ => processCommand_mirrors env⟩

/-- A path between tabs, and a reply to each call `cat` makes for it. -/
theorem shell_refined_cat :
    (processCommand ⟨[], [], []⟩ 2 ⟨[104, 0] ++ ascii "cat\tx " ++ [0], [⟨3, [], []⟩,
        ⟨2, [97, 98], []⟩, ⟨2, [], []⟩, ⟨0, [], []⟩], []⟩).2.asked =
      (shell ⟨[], [], []⟩ (ascii "cat\tx ") ⟨[], [⟨3, [], []⟩, ⟨2, [97, 98], []⟩, ⟨2, [], []⟩,
        ⟨0, [], []⟩], []⟩).2.asked := by
  have terminated : StringAt ([104, 0] ++ ascii "cat\tx " ++ [0]) 2 (ascii "cat\tx ") := by
    unfold StringAt
    decide
  exact ((shell_refined ⟨[], [], []⟩ (ascii "cat\tx ")).2 2 ⟨[104, 0] ++ ascii "cat\tx " ++ [0],
    [⟨3, [], []⟩, ⟨2, [97, 98], []⟩, ⟨2, [], []⟩, ⟨0, [], []⟩], []⟩ terminated).asked []

section Blanks

theorem tokens_restLine (line : List UInt8) : tokens (restLine line) = (tokens line).tail := by
  have kept : tokens line = tokens (line.dropWhile isBlank) := (words_dropWhile line).symm
  have first := List.head?_dropWhile_not isBlank line
  rw [kept, restLine]
  cases left : line.dropWhile isBlank with
  | nil => rfl
  | cons c rest =>
    rw [left] at first
    rw [tokens_arg (by simpa using first)]
    rfl

/-- What is behind a path is its tokens, and whether they start at once. -/
theorem fields_behind (line : List UInt8) :
    fields (restLine (restLine line)) =
      if singleBlank line then (tokens line).tail.tail else [] :: (tokens line).tail.tail := by
  have left : tokens (restLine (restLine line)) = (tokens line).tail.tail := by
    rw [tokens_restLine, tokens_restLine]
  cases single : singleBlank line with
  | true => exact (fields_of_token single).trans left
  | false => exact (fields_of_blank single).trans (congrArg ([] :: ·) left)

theorem shell_eq (env : Env) (same : tokens line = tokens line')
    (memrun : (tokens line).head? = some (ascii "memrun") → singleBlank line = singleBlank line') :
    shell env line = shell env line' := by
  unfold shell
  rw [← same]
  cases split : tokens line with
  | nil => rfl
  | cons name others =>
    rw [split] at memrun
    dsimp only
    cases listed : builtins.lookup name with
    | none => rfl
    | some builtin =>
      cases builtin with
      | memrun =>
        obtain ⟨before, after, table, -⟩ := List.lookup_eq_some_iff.mp listed
        have member : (name, Builtin.memrun) ∈ builtins := by simp [table]
        have named : name = ascii "memrun" := by simpa [builtins] using member
        rw [fields_behind line, fields_behind line', ← same, memrun (congrArg some named)]
      | _ => rfl

/-- Two lines with the same tokens are one command, whatever the blanks are and wherever
the lines stand. Only `memrun` tells one blank behind its path from several. -/
theorem blanks_immaterial (env : Env) (v w : World) (here : StringAt v.state p line)
    (there : StringAt w.state q line') (answers : v.answers = w.answers) (asked : v.asked = w.asked)
    (same : tokens line = tokens line')
    (memrun : (tokens line).head? = some (ascii "memrun") → singleBlank line = singleBlank line') :
    (processCommand env p v).1 = (processCommand env q w).1 ∧
    (processCommand env p v).2.asked = (processCommand env q w).2.asked ∧
    (processCommand env p v).2.answers = (processCommand env q w).2.answers := by
  have first := processCommand_mirrors env v here w.state
  have second := processCommand_mirrors env w there w.state
  rw [shell_eq env same memrun, answers, asked] at first
  have equal := first.symm.trans second
  simp only [Prod.mk.injEq, World.mk.injEq, true_and] at equal
  exact ⟨equal.1, equal.2.2, equal.2.1⟩

/-- Several blanks behind the path, on either line. -/
theorem blanks_immaterial_memrun :
    (processCommand ⟨[], [], []⟩ 0
        ⟨ascii "memrun x  y z" ++ [0], List.replicate 11 ⟨0, [], []⟩, []⟩).2.asked =
      (processCommand ⟨[], [], []⟩ 0
        ⟨ascii " memrun  x\t y  z" ++ [0], List.replicate 11 ⟨0, [], []⟩, []⟩).2.asked := by
  have here : StringAt (ascii "memrun x  y z" ++ [0]) 0 (ascii "memrun x  y z") := rfl
  have there : StringAt (ascii " memrun  x\t y  z" ++ [0]) 0 (ascii " memrun  x\t y  z") := rfl
  have same : tokens (ascii "memrun x  y z") = tokens (ascii " memrun  x\t y  z") := by decide
  have blanks : singleBlank (ascii "memrun x  y z") = singleBlank (ascii " memrun  x\t y  z") := by
    decide
  have equal := blanks_immaterial ⟨[], [], []⟩
    ⟨ascii "memrun x  y z" ++ [0], List.replicate 11 ⟨0, [], []⟩, []⟩
    ⟨ascii " memrun  x\t y  z" ++ [0], List.replicate 11 ⟨0, [], []⟩, []⟩ here there rfl rfl same
    fun _ => blanks
  exact equal.2.1

end Blanks
end MinLinux.Command
