import MinLinux.Command.Confinement

/-! The argument vectors of the children. `busybox` and `cmd_memrun` share `fill_args`,
which counts from where they start and compares with the size of the whole vector. -/
namespace MinLinux.Command
open Dialog Text

/-- The vectors a process hands to `execveat`. -/
def vectors (asked : List Event) : List (List (List UInt8)) :=
  asked.filterMap fun e =>
    match e.1 with
    | .execveat _ _ argv _ _ => some argv
    | _ => none

/-- The second token of the line is followed by one blank and a third token. -/
def singleBlank (line : List UInt8) : Bool := (restLine (restLine line)).head?.any fun c => !isBlank c

/-- An `execveat` is one with the given vector. -/
def Hands (argv : List (List UInt8)) (e : Event) : Prop :=
  ∀ dirfd path argv' envp flags, e.1 = .execveat dirfd path argv' envp flags → argv' = argv

theorem hands_other
    (other : ∀ dirfd path argv' envp flags, call ≠ .execveat dirfd path argv' envp flags) :
    Hands argv (call, r) := by
  intro dirfd path argv' envp flags same
  exact absurd same (other dirfd path argv' envp flags)

theorem hands_writes : Writes (Hands argv) := fun _ _ => hands_other nofun

theorem ExecsBusybox.hands (execs : ExecsBusybox argv e) : Hands argv e :=
  fun dirfd path argv' envp flags same => (execs dirfd path argv' envp flags same).2.2

theorem mem_vectors : v ∈ vectors asked ↔
    ∃ dirfd path envp flags r, (.execveat dirfd path v envp flags, r) ∈ asked := by
  constructor
  · intro member
    obtain ⟨⟨call, r⟩, inside, handed⟩ := List.mem_filterMap.mp member
    cases call
    case execveat dirfd path argv envp flags =>
      cases handed
      exact ⟨dirfd, path, envp, flags, r, inside⟩
    all_goals cases handed
  · rintro ⟨dirfd, path, envp, flags, r, inside⟩
    exact List.mem_filterMap.mpr ⟨_, inside, rfl⟩

/-- A conversation that starts here hands on no other vector. -/
theorem vectors_of_hands {m : Proc Unit} (asks : Asks (Hands argv) m ⟨mem, answers, []⟩)
    (member : v ∈ vectors (m ⟨mem, answers, []⟩).2.asked) : v = argv := by
  obtain ⟨new, same, all⟩ := asks
  rw [same, List.nil_append] at member
  obtain ⟨dirfd, path, envp, flags, r, inside⟩ := mem_vectors.mp member
  exact all _ inside dirfd path v envp flags rfl

section Fields
variable {s : List UInt8}

theorem fields_of_token (starts : s.head?.any (fun c => !isBlank c) = true) :
    fields s = tokens s := by
  cases s with
  | nil => cases starts
  | cons c rest => exact (tokens_arg (by simpa using starts)).symm

/-- Otherwise an empty string comes first. -/
theorem fields_of_blank (blank : s.head?.any (fun c => !isBlank c) = false) :
    fields s = [] :: tokens s := by
  cases s with
  | nil => rfl
  | cons c rest =>
    have is_blank : isBlank c = true := by simpa using blank
    have empty : firstArg (c :: rest) = [] := List.takeWhile_cons_of_neg (by simp [is_blank])
    have tail : restArgs (c :: rest) = rest := by
      rw [restArgs, List.dropWhile_cons_of_neg (by simp [is_blank])]
      rfl
    rw [fields, empty, tail, tokens, tokens, words_sep is_blank]

theorem fields_length (s : List UInt8) :
    (fields s).length =
      (tokens s).length + if s.head?.any (fun c => !isBlank c) then 0 else 1 := by
  cases starts : s.head?.any fun c => !isBlank c with
  | true =>
    rw [fields_of_token starts]
    rfl
  | false =>
    rw [fields_of_blank starts]
    rfl

/-- No token is empty. -/
theorem token_nonempty (member : t ∈ tokens s) : t ≠ [] := by
  rintro rfl
  simp [tokens, words] at member

end Fields

section Memrun
variable {w : World} {env : Env}

theorem execMemrun_hands (loads : ∀ v : World, v.state = mem → loadArgs args v = (.ok argv, v))
    (env : Env) (path : Nat) : Emits (· = mem) (Hands argv) (execMemrun env path args) := by
  refine .bind (openConsole_emits hands_writes (fun _ => hands_other nofun)
    (fun _ _ _ => hands_other nofun) (fun _ _ => hands_other nofun) _ _ _ _) fun _ => ?_
  refine .bind (.ask _ _ fun _ => hands_other nofun) fun _ => .bind (loadString_emits _) fun _ => ?_
  refine .bind (syscheck_emits hands_writes _ _ _ fun _ => hands_other nofun) fun _ => ?_
  refine .bind (syscheck_emits hands_writes _ _ _ fun _ => hands_other nofun) fun _ => ?_
  refine .bind (syscheck_emits hands_writes _ _ _ fun _ => hands_other nofun) fun _ => ?_
  refine .bind (syscheck_emits hands_writes _ _ _ fun _ => hands_other nofun) fun _ => ?_
  refine .bind (execveat_emits loads ?_) fun _ => writeErr_emits hands_writes _ _
  rintro _ _ _ _ _ _ ⟨⟩
  rfl

/-- A vector with room for its NULL is built of the path and of what `fill_args` makes
of the rest. -/
theorem memrunChild_eq (env : Env) (at_path : StringAt w.state path name)
    (at_next : StringAt w.state next rest) (apart : path + name.length < next ∨ rest = [])
    (few : 1 + (fields rest).length < MAX_ARGS) :
    ∃ mem args, memrunChild env path next w = execMemrun env path args { w with state := mem } ∧
      StringAt mem path name ∧
      ∀ v : World, v.state = mem → loadArgs args v = (.ok (name :: fields rest), v) := by
  have prepared : Prepared w.state (some next) [.line path] [name] := by
    refine .cons ⟨at_path, ?_⟩ .nil
    rintro p ⟨⟩ q ⟨⟩
    rcases apart with apart | empty
    · exact .inl apart
    · exact .inr (empty ▸ at_next)
  obtain ⟨mem, args, filled, points, loads⟩ :=
    fillArgs_vector prepared (.some at_next) (Nat.succ_pos 0) few
  cases points with
  | cons at_path _ => exact ⟨mem, args, bind_ok _ filled, at_path, loads⟩

theorem memrunFile_hands (env : Env) (at_path : StringAt w.state path name)
    (at_next : StringAt w.state next rest) (apart : path + name.length < next ∨ rest = [])
    (few : 1 + (fields rest).length < MAX_ARGS) :
    Asks (Hands (name :: fields rest)) (memrunFile env path next) w := by
  refine Asks.ask_bind (fun _ => hands_other nofun) fun tid v left => ?_
  split
  · exact (memrunParent_emits (I := fun _ => True) hands_writes (fun _ _ => hands_other nofun)
      _ _).asks trivial
  · split
    · rw [← left] at at_path at_next
      obtain ⟨mem, args, same, -, loads⟩ := memrunChild_eq env at_path at_next apart few
      rw [Asks, same]
      exact (execMemrun_hands loads env path).asks rfl
    · exact (writeErr_emits (I := fun _ => True) hands_writes _ _).asks trivial

/-- The answers the child of `memrun` gets in front of its `execveat`. -/
structure Launch where
  closed : Reply
  input : Reply
  output : Reply
  dup : Reply
  memfd : Reply
  infd : Reply
  stats : Reply
  copied : Reply
  mask : Reply

namespace Launch

def replies (l : Launch) : List Reply :=
  [l.closed, l.input, l.output, l.dup, l.memfd, l.infd, l.stats, l.copied, l.mask]

def calls (l : Launch) (path : List UInt8) : List Call :=
  [.closeRange 0 0xFFFFFFFF 0, .openat (ascii "/dev/console") O_RDONLY,
    .openat (ascii "/dev/console") (O_APPEND ||| O_WRONLY), .dup3 l.output.res 2, .memfdCreate 0,
    .openat2 path O_CLOEXEC, .fstatat l.infd.res [] AT_EMPTY_PATH,
    .copyFileRange l.infd.res l.memfd.res (l.stats.fields.getD 0 0), .sigprocmask]

/-- No answer that the child checks is an error. -/
structure Succeeds (l : Launch) : Prop where
  input : 0 ≤ l.input.res
  output : 0 ≤ l.output.res
  dup : 0 ≤ l.dup.res
  infd : 0 ≤ l.infd.res
  stats : 0 ≤ l.stats.res
  copied : 0 ≤ l.copied.res
  mask : 0 ≤ l.mask.res

end Launch

theorem execMemrun_reaches (env : Env)
    (loads : ∀ v : World, v.state = w.state → loadArgs args v = (.ok argv, v))
    (at_path : StringAt w.state path name) (l : Launch) (succeeds : l.Succeeds)
    (answers : w.answers = l.replies ++ exec :: later) :
    ∃ new, (execMemrun env path args w).2.asked =
      w.asked ++ (l.calls name).zip l.replies ++
        (.execveat l.memfd.res [] argv [] AT_EMPTY_PATH, exec) :: new := by
  obtain ⟨new, reached⟩ := report_reaches
    (w := ⟨w.state, exec :: later, w.asked ++ (l.calls name).zip l.replies⟩) (loads _ rfl) rfl
    l.memfd.res [] AT_EMPTY_PATH
  refine ⟨new, Eq.trans ?_ reached⟩
  have loaded : ∀ answers asked, loadString (.line path) ⟨w.state, answers, asked⟩ =
      (.ok name, ⟨w.state, answers, asked⟩) := fun _ _ => loadString_spec at_path
  rw [execMemrun, bind_ok _ (openConsole_ok answers succeeds.input succeeds.output succeeds.dup _ _ _),
    bind_ok _ (syscall_ok rfl _), bind_ok _ (loaded _ _),
    bind_ok _ (syscheck_ok rfl succeeds.infd _ _), bind_ok _ (syscheck_ok rfl succeeds.stats _ _),
    bind_ok _ (syscheck_ok rfl succeeds.copied _ _), bind_ok _ (syscheck_ok rfl succeeds.mask _ _)]
  simp only [List.append_assoc]
  rfl

theorem memrunFile_reaches (env : Env) (at_path : StringAt w.state path name)
    (at_next : StringAt w.state next rest) (apart : path + name.length < next ∨ rest = [])
    (few : 1 + (fields rest).length < MAX_ARGS) (child : clone.res = 0) (l : Launch)
    (succeeds : l.Succeeds) (answers : w.answers = clone :: (l.replies ++ exec :: later)) :
    ∃ new, (memrunFile env path next w).2.asked =
      w.asked ++ (.clone3 0 SIGCHLD, clone) :: (l.calls name).zip l.replies ++
        (.execveat l.memfd.res [] (name :: fields rest) [] AT_EMPTY_PATH, exec) :: new := by
  let v : World :=
    { w with
      answers := l.replies ++ exec :: later
      asked := w.asked ++ [(.clone3 0 SIGCHLD, clone)] }
  obtain ⟨mem, args, same, at_path', loads⟩ :=
    memrunChild_eq (w := v) env at_path at_next apart few
  obtain ⟨new, reached⟩ := execMemrun_reaches (w := { v with state := mem }) env loads
    at_path' l succeeds rfl
  refine ⟨new, ?_⟩
  rw [memrunFile, bind_ok _ (syscall_ok answers _), if_neg (by omega), if_pos child]
  refine (congrArg (fun out => out.2.asked) same).trans (reached.trans ?_)
  simp [v]

theorem memrunChild_overflow (env : Env) (path : Nat) (at_next : StringAt w.state next rest)
    (many : MAX_ARGS ≤ 1 + (fields rest).length) :
    ∃ mem, memrunChild env path next w = (.error .overflow, { w with state := mem }) := by
  obtain ⟨mem, overflow⟩ := fillArgs_overflow (.some at_next)
    (show [Arg.str (.line path)].length = 1 from rfl)
    (show 31 = (List.replicate 31 Arg.uninit).length from rfl) (by decide)
    (Nat.le_of_add_le_add_left many)
  exact ⟨mem, bind_error (execMemrun env path) overflow⟩

theorem memrunFile_overflow (env : Env) (at_next : StringAt w.state next rest)
    (answers : w.answers = clone :: later) (child : clone.res = 0)
    (many : MAX_ARGS ≤ 1 + (fields rest).length) :
    (memrunFile env path next w).1 = .error .overflow := by
  rw [memrunFile, bind_ok _ (syscall_ok answers _), if_neg (by omega), if_pos child]
  obtain ⟨mem, overflow⟩ := memrunChild_overflow
    (w := { w with answers := later, asked := w.asked ++ [(.clone3 0 SIGCHLD, clone)] }) env path
    at_next many
  exact congrArg Prod.fst overflow

end Memrun

section Busybox
variable {w : World} {env : Env}

theorem busybox_overflow (env : Env) (at_next : StringAt w.state next rest)
    (answers : w.answers = clone :: later) (child : clone.res = 0)
    (many : MAX_ARGS ≤ 2 + (tokens rest).length) :
    (busybox env command next w).1 = .error .overflow := by
  obtain ⟨found, ran, remaining, -⟩ := findArg_remaining at_next
  obtain ⟨mem, overflow⟩ := fillArgs_overflow
    (w := { w with answers := later, asked := w.asked ++ [(.clone3 0 SIGCHLD, clone)] })
    remaining
    (show [Arg.str (.literal (ascii "/busybox")), .str (.line command)].length = 2 from rfl)
    (show 30 = (List.replicate 30 Arg.uninit).length from rfl) (by decide)
    (Nat.le_of_add_le_add_left many)
  rw [busybox, bind_ok _ ran, bind_ok _ (syscall_ok answers _), if_neg (by omega), if_pos child]
  exact congrArg Prod.fst (bind_error _ overflow)

end Busybox

section Lines
variable {w : World}

theorem cmdMemrun_file (env : Env) (at_next : StringAt w.state next rest)
    (split : tokens rest = path :: others) :
    ∃ p behind mem, cmdMemrun env next w = memrunFile env p behind { w with state := mem } ∧
      StringAt mem p path ∧ StringAt mem behind (restLine rest) ∧
      (p + path.length < behind ∨ restLine rest = []) ∧ tokens (restLine rest) = others := by
  obtain ⟨p, behind, mem, file, left⟩ := nextArg at_next split
  refine ⟨p, behind, mem, ?_, file.at_arg, file.at_rest, file.apart, left⟩
  rw [cmdMemrun, bind_ok _ file.found]
  simp only
  rw [bind_ok _ file.terminated]

theorem memrun_file (env : Env) (at_line : StringAt w.state args line)
    (split : tokens line = ascii "memrun" :: path :: others) :
    ∃ p next mem, processCommand env args w = memrunFile env p next { w with state := mem } ∧
      StringAt mem p path ∧ StringAt mem next (restLine (restLine line)) ∧
      (p + path.length < next ∨ restLine (restLine line) = []) ∧
      tokens (restLine (restLine line)) = others := by
  obtain ⟨_, start, mem, arg, left, same⟩ := processCommand_eq env at_line split
  rw [same]
  exact cmdMemrun_file (w := { w with state := mem }) env arg.at_rest left

theorem busybox_line (env : Env) (at_line : StringAt w.state args line)
    (split : tokens line = name :: others) (unlisted : builtins.lookup name = none) :
    ∃ prog next mem, processCommand env args w = busybox env prog next { w with state := mem } ∧
      StringAt mem prog name ∧ StringAt mem next (restLine line) ∧
      (prog + name.length < next ∨ restLine line = []) ∧ tokens (restLine line) = others := by
  obtain ⟨prog, next, mem, arg, left, same⟩ := processCommand_eq env at_line split
  rw [unlisted] at same
  exact ⟨prog, next, mem, same, arg.at_arg, arg.at_rest, arg.apart, left⟩

end Lines

/-- No access is outside of its object, so the stores into the vector stay inside its slots.
These hold a NULL behind the strings, and of more strings than fit the vector takes the
first. -/
structure Bounded (env : Env) (mem : List UInt8) (args : Nat) (wanted : List (List UInt8)) :
    Prop where
  inside : ∀ answers stop, (processCommand env args ⟨mem, answers, []⟩).1 = .error stop →
    stop.regular = true
  ended : ∀ answers, ∀ v ∈ vectors (processCommand env args ⟨mem, answers, []⟩).2.asked,
    v.length < MAX_ARGS ∧ (MAX_ARGS ≤ wanted.length → v = wanted.take (MAX_ARGS - 1))

section Bounds
variable {env : Env} {mem : List UInt8}

theorem Bounded.overflows_not (bounded : Bounded env mem args wanted) (answers : List Reply) :
    (processCommand env args ⟨mem, answers, []⟩).1 ≠ .error .overflow :=
  fun overflow => nomatch bounded.inside answers _ overflow

theorem bounded_of_hands (at_line : StringAt mem args line)
    (few : (vectorOf line).length < MAX_ARGS) (other : (tokens line).head? ≠ some (ascii "ls"))
    (hands : ∀ answers, Asks (Hands (vectorOf line)) (processCommand env args) ⟨mem, answers, []⟩)
    (fits : wanted.length < MAX_ARGS) : Bounded env mem args wanted := by
  constructor
  · intro answers stop stopped
    have confined := processCommand_confined (A := fun e => e.regular = true)
      (w := ⟨mem, answers, []⟩) (fun _ => id) at_line
      (fun full => absurd full (Nat.not_le.mpr few)) (fun lists => absurd lists other) env
    exact confined.2 stop stopped
  · intro answers v member
    rw [vectors_of_hands (hands answers) member]
    exact ⟨few, fun many => absurd many (Nat.not_le.mpr fits)⟩

theorem busybox_bounded (at_line : StringAt mem args line) (split : tokens line = name :: others)
    (unlisted : builtins.lookup name = none) :
    Bounded env mem args (ascii "/busybox" :: name :: others) ↔ (tokens line).length ≤ 30 := by
  have vector : vectorOf line = ascii "/busybox" :: name :: others := by
    simp only [vectorOf, split, unlisted]
  constructor
  · intro bounded
    by_contra many
    obtain ⟨prog, next, mem', same, -, at_rest, -, left⟩ :=
      busybox_line (w := ⟨mem, [⟨0, [], []⟩], []⟩) env at_line split unlisted
    apply bounded.overflows_not [⟨0, [], []⟩]
    rw [same]
    apply busybox_overflow env at_rest rfl rfl
    rw [left]
    rw [split, List.length_cons] at many
    change 32 ≤ _
    omega
  · intro few
    have slots : (vectorOf line).length < MAX_ARGS := by
      rw [vector, List.length_cons, ← split]
      exact Nat.lt_succ_of_le (Nat.succ_le_succ few)
    refine bounded_of_hands at_line slots ?_ ?_ (vector ▸ slots)
    · rw [split]
      rintro ⟨⟩
      exact absurd unlisted (by decide)
    · intro answers
      obtain ⟨prog, next, mem', same, at_name, at_rest, apart, left⟩ :=
        busybox_line (w := ⟨mem, answers, []⟩) env at_line split unlisted
      rw [vector, Asks, same, ← left]
      rw [split, List.length_cons, ← left] at few
      obtain ⟨new, asked, all⟩ := busybox_only_execs (w := ⟨mem', answers, []⟩) at_name at_rest
        apart (by omega) env
      exact ⟨new, asked, fun e member => (all e member).hands⟩

theorem memrun_vector (split : tokens line = ascii "memrun" :: path :: others) :
    vectorOf line = path :: fields (restLine (restLine line)) := by
  rw [vectorOf, split]
  rfl

theorem memrun_length (line : List UInt8) (left : tokens (restLine (restLine line)) = others) :
    (fields (restLine (restLine line))).length =
      others.length + if singleBlank line then 0 else 1 := by
  rw [fields_length, left]
  rfl

theorem memrun_bounded (at_line : StringAt mem args line)
    (split : tokens line = ascii "memrun" :: path :: others) :
    Bounded env mem args (path :: others) ↔
      (tokens line).length ≤ if singleBlank line then 32 else 31 := by
  have run : ∀ answers, ∃ p next mem', processCommand env args ⟨mem, answers, []⟩ =
      memrunFile env p next ⟨mem', answers, []⟩ ∧ StringAt mem' p path ∧
      StringAt mem' next (restLine (restLine line)) ∧
      (p + path.length < next ∨ restLine (restLine line) = []) ∧
      tokens (restLine (restLine line)) = others :=
    fun answers => memrun_file (w := ⟨mem, answers, []⟩) env at_line split
  obtain ⟨-, -, -, -, -, -, -, left⟩ := run []
  have length := memrun_length line left
  have room : (tokens line).length ≤ (if singleBlank line then 32 else 31) ↔
      1 + (fields (restLine (restLine line))).length < 32 := by
    rw [split, length]
    simp only [List.length_cons]
    split <;> omega
  rw [room]
  constructor
  · intro bounded
    by_contra many
    obtain ⟨p, next, mem', same, -, at_rest, -⟩ := run [⟨0, [], []⟩]
    apply bounded.overflows_not [⟨0, [], []⟩]
    rw [same]
    exact memrunFile_overflow env at_rest rfl rfl (Nat.le_of_not_lt many)
  · intro few
    have slots : (vectorOf line).length < MAX_ARGS := by
      rw [memrun_vector split, List.length_cons, Nat.add_comm]
      exact few
    apply bounded_of_hands at_line slots
    · rw [split]
      change some (ascii "memrun") ≠ some (ascii "ls")
      decide
    · intro answers
      obtain ⟨p, next, mem', same, at_path, at_rest, apart, -⟩ := run answers
      rw [memrun_vector split, Asks, same]
      exact memrunFile_hands env at_path at_rest apart few
    · rw [List.length_cons]
      change _ < 32
      omega

/-- The whole vector and its NULL fit the 32 slots of `args` up to 30 tokens; `memrun`,
whose name is not part of the vector, has room for 32 of them, and for one less when an
empty string comes behind the path. -/
theorem vector_bounded_iff (env : Env) (mem : List UInt8) (args : Nat) (line : List UInt8)
    (terminated : StringAt mem args line) :
    (∀ name others, tokens line = name :: others → builtins.lookup name = none →
      (Bounded env mem args (ascii "/busybox" :: name :: others) ↔ (tokens line).length ≤ 30)) ∧
    ∀ path others, tokens line = ascii "memrun" :: path :: others →
      (Bounded env mem args (path :: others) ↔
        (tokens line).length ≤ if singleBlank line then 32 else 31) :=
  ⟨fun _ _ => busybox_bounded terminated, fun _ _ => memrun_bounded terminated⟩

/-- Thirty tokens of `busybox` fit, and after two blanks so does a `memrun` of three. -/
theorem vector_bounded_thirty :
    Bounded ⟨[], [], []⟩ ((List.replicate 30 (ascii "a ")).flatten ++ [0]) 0
      (ascii "/busybox" :: List.replicate 30 (ascii "a")) ∧
    Bounded ⟨[], [], []⟩ (ascii "memrun x  y" ++ [0]) 0 [ascii "x", ascii "y"] := by
  have thirty : tokens (List.replicate 30 (ascii "a ")).flatten = List.replicate 30 (ascii "a") := by
    decide +kernel
  have terminated : StringAt ((List.replicate 30 (ascii "a ")).flatten ++ [0]) 0
      (List.replicate 30 (ascii "a ")).flatten := rfl
  have spaced : tokens (ascii "memrun x  y") = [ascii "memrun", ascii "x", ascii "y"] := by decide
  have terminated' : StringAt (ascii "memrun x  y" ++ [0]) 0 (ascii "memrun x  y") := rfl
  constructor
  · apply ((vector_bounded_iff ⟨[], [], []⟩ _ 0 _ terminated).1 _ _ thirty (by decide)).mpr
    rw [thirty]
    exact Nat.le_of_eq List.length_replicate
  · apply ((vector_bounded_iff ⟨[], [], []⟩ _ 0 _ terminated').2 _ _ spaced).mpr
    decide

/-- With one token more, the NULL of the child is stored behind the array. -/
theorem vector_unbounded :
    tokens (List.replicate 31 (ascii "a ")).flatten = List.replicate 31 (ascii "a") ∧
    (processCommand ⟨[], [], []⟩ 0 ⟨(List.replicate 31 (ascii "a ")).flatten ++ [0], [⟨0, [], []⟩],
      []⟩).1 = .error .overflow ∧
    ¬Bounded ⟨[], [], []⟩ ((List.replicate 31 (ascii "a ")).flatten ++ [0]) 0
      (ascii "/busybox" :: List.replicate 31 (ascii "a")) := by
  have overflow : (processCommand ⟨[], [], []⟩ 0 ⟨(List.replicate 31 (ascii "a ")).flatten ++ [0],
      [⟨0, [], []⟩], []⟩).1 = .error .overflow := by decide +kernel
  exact ⟨by decide +kernel, overflow, fun bounded => bounded.overflows_not _ overflow⟩

end Bounds

/-- The child has been forked, and nothing it checks in front of `execveat` is an error. -/
def Launches (answers : List Reply) : Prop :=
  ∃ clone exec later, ∃ l : Launch,
    answers = clone :: (l.replies ++ exec :: later) ∧ clone.res = 0 ∧ l.Succeeds

/-- The only vector handed to `execveat` is the given one, which has no empty string, and
a child that gets there hands it on. -/
structure Vectored (env : Env) (mem : List UInt8) (args : Nat) (argv : List (List UInt8)) :
    Prop where
  only : ∀ answers, ∀ v ∈ vectors (processCommand env args ⟨mem, answers, []⟩).2.asked,
    v = argv ∧ [] ∉ v
  reached : ∀ answers, Launches answers →
    argv ∈ vectors (processCommand env args ⟨mem, answers, []⟩).2.asked

section Vectors
variable {env : Env} {mem : List UInt8}

/-- What `memrun` hands on, whatever the blanks are. -/
theorem memrun_hands (env : Env) (at_line : StringAt mem args line)
    (split : tokens line = ascii "memrun" :: path :: others) (few : (tokens line).length ≤ 31)
    (answers : List Reply) :
    Asks (Hands (path :: fields (restLine (restLine line)))) (processCommand env args)
        ⟨mem, answers, []⟩ ∧
      (Launches answers → path :: fields (restLine (restLine line)) ∈
        vectors (processCommand env args ⟨mem, answers, []⟩).2.asked) := by
  obtain ⟨p, next, mem', same, at_path, at_rest, apart, left⟩ :=
    memrun_file (w := ⟨mem, answers, []⟩) env at_line split
  have room : 1 + (fields (restLine (restLine line))).length < MAX_ARGS := by
    rw [memrun_length line left]
    rw [split] at few
    simp only [List.length_cons] at few
    change _ < 32
    split <;> omega
  rw [Asks, same]
  constructor
  · exact memrunFile_hands env at_path at_rest apart room
  · rintro ⟨clone, exec, later, l, rfl, child, succeeds⟩
    obtain ⟨new, asked⟩ := memrunFile_reaches
      (w := ⟨mem', clone :: (l.replies ++ exec :: later), []⟩) env at_path at_rest apart room child l
      succeeds rfl
    rw [asked]
    exact mem_vectors.mpr ⟨_, _, _, _, exec, List.mem_append_right _ List.mem_cons_self⟩

theorem launches_zero : Launches (List.replicate 11 ⟨0, [], []⟩) := by
  let zero : Reply := ⟨0, [], []⟩
  refine ⟨zero, zero, [], ⟨zero, zero, zero, zero, zero, zero, zero, zero, zero⟩, rfl, rfl, ?_⟩
  constructor <;> exact Int.le_refl 0

end Vectors

/-- The vector of `memrun` is the tokens behind its name only if exactly one blank
separates the path from a further token: `fill_args` is handed what stands behind the
NUL of the path, and at a blank or at the end of the line that is an empty string. -/
theorem memrun_vectored_iff (env : Env) (mem : List UInt8) (args : Nat) (line : List UInt8)
    (terminated : StringAt mem args line) (path : List UInt8) (others : List (List UInt8))
    (split : tokens line = ascii "memrun" :: path :: others) (few : (tokens line).length ≤ 31) :
    Vectored env mem args (path :: others) ↔ singleBlank line = true := by
  have hands := memrun_hands env terminated split few
  obtain ⟨-, -, -, -, -, -, -, left⟩ := memrun_file (w := ⟨mem, [], []⟩) env terminated split
  constructor
  · intro vectored
    by_contra blank
    have member := vectored.reached _ launches_zero
    have same := vectors_of_hands (hands _).1 member
    rw [fields_of_blank (Bool.eq_false_of_not_eq_true blank), left] at same
    exact absurd (congrArg List.length same) (by simp)
  · intro single
    rw [fields_of_token single, left] at hands
    constructor
    · intro answers v member
      have same := vectors_of_hands (hands answers).1 member
      refine ⟨same, ?_⟩
      rw [same]
      intro empty
      refine token_nonempty (s := line) ?_ rfl
      rw [split]
      exact List.mem_cons_of_mem _ empty
    · intro answers launches
      exact (hands answers).2 launches

theorem memrun_vectored_single :
    Vectored ⟨[], [], []⟩ (ascii " memrun\t x y  z " ++ [0]) 0 [ascii "x", ascii "y", ascii "z"] := by
  have terminated : StringAt (ascii " memrun\t x y  z " ++ [0]) 0 (ascii " memrun\t x y  z ") := rfl
  apply (memrun_vectored_iff ⟨[], [], []⟩ _ 0 _ terminated _ _ (by decide) (by decide)).mpr
  decide

/-- Without a third token the program gets an empty argument. -/
theorem memrun_not_vectored :
    tokens (ascii "memrun x") = [ascii "memrun", ascii "x"] ∧
    vectors (processCommand ⟨[], [], []⟩ 0
      ⟨ascii "memrun x" ++ [0], List.replicate 11 ⟨0, [], []⟩, []⟩).2.asked = [[ascii "x", []]] ∧
    ¬Vectored ⟨[], [], []⟩ (ascii "memrun x" ++ [0]) 0 [ascii "x"] := by
  have handed : vectors (processCommand ⟨[], [], []⟩ 0
      ⟨ascii "memrun x" ++ [0], List.replicate 11 ⟨0, [], []⟩, []⟩).2.asked = [[ascii "x", []]] := by
    decide +kernel
  refine ⟨by decide, handed, ?_⟩
  intro vectored
  have only := vectored.only (List.replicate 11 ⟨0, [], []⟩) [ascii "x", []]
  rw [handed] at only
  exact absurd (only (List.mem_singleton_self _)).1 (by decide)

end MinLinux.Command
