import MinLinux.Locality
import MinLinux.Command.Meaning
import MinLinux.Command.Output

/-! The commands stay inside the command line they are given. What they do to a line
depends on nothing behind its NUL and changes nothing there. -/
namespace MinLinux.Command
open Dialog Text

section Macro
variable {C R S : Type} {A : Stop → Prop} {write : Int → List UInt8 → C} {res : R → Int}
  (others : ∀ e : Stop, e.regular = true → A e)
include others

theorem Macro.writeStr_blind (bytes : List UInt8) :
    Blind A (Macro.writeStr write bytes : Dialog C R S Stop Unit) :=
  .bind (.ask (others .starved rfl) _) fun _ => .pure _

theorem Macro.syscheck_blind (file stale : List UInt8) (line : String) (call : C) :
    Blind A (Macro.syscheck write res file stale line call : Dialog C R S Stop R) := by
  apply Blind.bind (.ask (others .starved rfl) call)
  intro reply
  split
  · refine .bind (writeStr_blind others _) fun _ => .bind (writeStr_blind others _) fun _ => ?_
    exact .bind (writeStr_blind others _) fun _ => .stop (others _ rfl)
  · exact .pure _

end Macro

section Blind
variable {A : Stop → Prop} (others : ∀ e : Stop, e.regular = true → A e)
include others

theorem syscall_blind (call : Call) : Blind A (syscall call) := .ask (others .starved rfl) call

theorem writeStr_blind (bytes : List UInt8) : Blind A (writeStr bytes) :=
  Macro.writeStr_blind others bytes

theorem syscheck_blind (env : Env) (line : String) (call : Call) :
    Blind A (syscheck env line call) :=
  Macro.syscheck_blind others env.file env.stale line call

theorem writeInt_blind (value : UInt64) : Blind A (writeInt value) := by
  rw [writeInt_eq]
  exact writeStr_blind others _

theorem writeErr_blind (text : List UInt8) (err : Int) : Blind A (writeErr text err) := by
  refine .bind (writeStr_blind others _) fun _ => .bind (writeStr_blind others _) fun _ => ?_
  exact .bind (writeInt_blind others _) fun _ => writeStr_blind others _

theorem catLoop_blind (fd : Int) (fuel : Nat) (buffer : List UInt8) :
    Blind A (catLoop fd fuel buffer) := by
  induction fuel generalizing buffer with
  | zero => exact .stop (others _ rfl)
  | succ fuel ih =>
    apply Blind.bind (syscall_blind others _)
    intro reply
    dsimp only
    split
    · apply Blind.bind (syscall_blind others _)
      intro written
      split
      · exact .bind (writeErr_blind others _ _) fun _ => ih _
      · exact ih _
    · exact .pure _

theorem cmdTime_blind (env : Env) : Blind A (cmdTime env) := by
  refine .bind (syscheck_blind others _ _ _) fun _ => .bind (writeStr_blind others _) fun _ => ?_
  refine .bind (writeInt_blind others _) fun _ => .bind (writeStr_blind others _) fun _ => ?_
  exact .bind (writeInt_blind others _) fun _ => writeStr_blind others _

theorem cmdUsage_blind (env : Env) : Blind A (cmdUsage env) := by
  refine .bind (syscheck_blind others _ _ _) fun _ => .bind (writeStr_blind others _) fun _ => ?_
  refine .bind (writeInt_blind others _) fun _ => .bind (writeStr_blind others _) fun _ => ?_
  exact .bind (writeInt_blind others _) fun _ => writeStr_blind others _

theorem cmdEnv_blind (env : Env) : Blind A (cmdEnv env) := by
  unfold cmdEnv
  induction env.envp with
  | nil => exact .pure _
  | cons entry rest ih =>
    exact .bind (.bind (writeStr_blind others _) fun _ => writeStr_blind others _) fun _ => ih

theorem openConsole_blind (env : Env) (inLine outLine dupLine : String) :
    Blind A (openConsole env inLine outLine dupLine) := by
  refine .bind (.bind (syscall_blind others _) fun _ => .pure _) fun _ => ?_
  refine .bind (syscheck_blind others _ _ _) fun _ => .bind (syscheck_blind others _ _ _) fun _ => ?_
  exact .bind (syscheck_blind others _ _ _) fun _ => .pure _

theorem memrunParent_blind (env : Env) (tid : Int) : Blind A (memrunParent env tid) := by
  refine .bind (writeStr_blind others _) fun _ => .bind (writeInt_blind others _) fun _ => ?_
  refine .bind (writeStr_blind others _) fun _ => .bind (syscheck_blind others _ _ _) fun _ => ?_
  refine .bind (writeStr_blind others _) fun _ => .bind (writeInt_blind others _) fun _ => ?_
  refine .bind (writeStr_blind others _) fun _ => ?_
  exact .bind (writeInt_blind others _) fun _ => writeStr_blind others _

theorem busyboxParent_blind (env : Env) (tid : Int) : Blind A (busyboxParent env tid) := by
  refine .bind (syscheck_blind others _ _ _) fun _ => .bind (writeStr_blind others _) fun _ => ?_
  exact .bind (writeInt_blind others _) fun _ => writeStr_blind others _

omit others in
theorem stringOf_blind (stops : A outside) (array : List UInt8) (p : Nat) :
    Blind A (stringOf outside array p) := by
  unfold stringOf
  split
  · exact .stop stops
  · exact .pure _

omit others in
theorem loadByte_blind (stops : A outside) (array : List UInt8) (i : Nat) :
    Blind A (loadByte outside array i) := by
  unfold loadByte
  split
  · exact .stop stops
  · exact .pure _

/-- The records are those of the kernel: malformed ones lead out of the local buffer. -/
theorem direntLoop_blind (malformed : A .malformed) (buffer : List UInt8) (count : Int)
    (fuel pos : Nat) : Blind A (direntLoop buffer count fuel pos) := by
  induction fuel generalizing pos with
  | zero => exact .stop (others _ rfl)
  | succ fuel ih =>
    unfold direntLoop
    split
    · refine .bind (stringOf_blind malformed _ _) fun _ => .bind (syscall_blind others _) fun _ => ?_
      apply Blind.bind (loadByte_blind malformed _ _)
      intro dType
      refine .bind (writeStr_blind others _) fun _ => .bind (loadByte_blind malformed _ _) fun _ => ?_
      exact .bind (loadByte_blind malformed _ _) fun _ => ih _
    · exact .pure _

theorem dirlistLoop_blind (malformed : A .malformed) (rootdir : Int) (fuel : Nat) :
    Blind A (dirlistLoop rootdir fuel) := by
  induction fuel with
  | zero => exact .stop (others _ rfl)
  | succ fuel ih =>
    apply Blind.bind (syscall_blind others _)
    intro reply
    refine .bind .budget fun _ => .bind (direntLoop_blind others malformed _ _ _ _) fun _ => ?_
    split
    · exact ih
    · exact .pure _

end Blind

section Extends

theorem findArgFrom_append (found : findArgFrom l p = some r) (tail : List UInt8) :
    findArgFrom (l ++ tail) p = some r := by
  induction l generalizing p with
  | nil => cases found
  | cons c rest ih =>
    simp only [List.cons_append, findArgFrom] at found ⊢
    split at found
    · rename_i blank
      rw [if_pos blank]
      exact ih found
    · rename_i blank
      rw [if_neg blank]
      exact found

theorem argEndFrom_append (found : argEndFrom l p = some r) (tail : List UInt8) :
    argEndFrom (l ++ tail) p = some r := by
  induction l generalizing p with
  | nil => cases found
  | cons c rest ih =>
    simp only [List.cons_append, argEndFrom] at found ⊢
    split at found
    · rename_i inside
      rw [if_pos inside]
      exact ih found
    · rename_i ended
      rw [if_neg ended]
      exact found

/-- The end of an argument is a byte of the memory. -/
theorem argEndFrom_inside (found : argEndFrom l p = some (q, cut)) :
    p ≤ q ∧ q < p + l.length := by
  induction l generalizing p with
  | nil => cases found
  | cons c rest ih =>
    simp only [argEndFrom, List.length_cons] at found ⊢
    split at found
    · have inside := ih found
      omega
    · cases found
      omega

theorem streqFrom_append (compared : streqFrom l name = some r) (tail : List UInt8) :
    streqFrom (l ++ tail) name = some r := by
  induction l generalizing name with
  | nil => simp [streqFrom] at compared
  | cons a as ih =>
    cases name with
    | nil => simp [streqFrom] at compared
    | cons b bs =>
      simp only [List.cons_append, streqFrom] at compared ⊢
      split at compared
      · rename_i differ
        rw [if_pos differ]
        exact compared
      · rename_i same
        rw [if_neg same]
        split at compared
        · rename_i zero
          rw [if_pos zero]
          exact compared
        · rename_i nonzero
          rw [if_neg nonzero]
          exact ih compared

theorem cstring_extend (found : cstring l = some s) (tail : List UInt8) :
    cstring (l ++ tail) = some s := by
  obtain ⟨clean, post, rfl⟩ := cstring_eq_some.mp found
  simp only [List.append_assoc, List.cons_append]
  exact cstring_append clean _

/-- A scan that succeeds starts inside of the memory, so it starts at the same byte when
there is more of it. -/
theorem drop_extend {f : List UInt8 → Option α} (empty : f [] = none)
    (found : f (mem.drop p) = some r) (tail : List UInt8) :
    (mem ++ tail).drop p = mem.drop p ++ tail := by
  apply List.drop_append_of_le_length
  by_contra beyond
  rw [List.drop_of_length_le (by omega), empty] at found
  cases found

theorem findArg_extends (p : Nat) : Extends (findArg p) := by
  intro w a w' ran tail
  simp only [findArg, bind_ok _ (get_apply _), World.extend] at ran ⊢
  cases scan : findArgFrom (w.state.drop p) p with
  | none =>
    rw [scan] at ran
    cases ran
  | some found =>
    have more := drop_extend (f := (findArgFrom · p)) rfl scan tail
    rw [scan] at ran
    cases ran
    simp only [more, findArgFrom_append scan]
    rfl

theorem streq_extends (p : Nat) (name : List UInt8) : Extends (streq p name) := by
  intro w a w' ran tail
  simp only [streq, bind_ok _ (get_apply _), World.extend] at ran ⊢
  cases scan : streqFrom (w.state.drop p) (name ++ [0]) with
  | none =>
    rw [scan] at ran
    cases ran
  | some equal =>
    have more := drop_extend (f := (streqFrom · (name ++ [0]))) rfl scan tail
    rw [scan] at ran
    cases ran
    simp only [more, streqFrom_append scan]
    rfl

/-- The NUL is stored over a byte of the memory. -/
theorem terminateArg_extends (p : Nat) : Extends (terminateArg p) := by
  intro w a w' ran tail
  simp only [terminateArg, bind_ok _ (get_apply _), World.extend] at ran ⊢
  cases scan : argEndFrom (w.state.drop p) p with
  | none =>
    rw [scan] at ran
    cases ran
  | some found =>
    obtain ⟨q, cut⟩ := found
    have more := drop_extend (f := (argEndFrom · p)) rfl scan tail
    obtain ⟨behind, inside⟩ := argEndFrom_inside scan
    rw [List.length_drop] at inside
    rw [scan] at ran
    simp only [more, argEndFrom_append scan]
    cases cut with
    | false =>
      cases ran
      rfl
    | true =>
      have stored : (w.state ++ tail).set q 0 = w.state.set q 0 ++ tail :=
        List.set_append_left _ _ (by omega)
      cases ran
      simp only [stored]
      rfl

theorem loadString_extends (path : CharPtr) : Extends (loadString path) := by
  cases path with
  | literal text => exact .pure text
  | line p =>
    intro w a w' ran tail
    simp only [loadString, bind_ok _ (get_apply _), stringOf, World.extend] at ran ⊢
    cases scan : cstring (w.state.drop p) with
    | none =>
      rw [scan] at ran
      cases ran
    | some s =>
      have more := drop_extend (f := cstring) rfl scan tail
      rw [scan] at ran
      cases ran
      simp only [more, cstring_extend scan]
      rfl

theorem storeArg_extends (args : List Arg) (i : Nat) (arg : Arg) : Extends (storeArg args i arg) := by
  unfold storeArg
  split
  · exact .pure _
  · exact .stop _

theorem fillLoop_extends (base left i : Nat) (args : List Arg) (next : Option Nat) :
    Extends (fillLoop base left i args next) := by
  induction left generalizing i args next with
  | zero => exact .pure _
  | succ left ih =>
    cases next with
    | none => exact .pure _
    | some next =>
      refine .bind (terminateArg_extends _) fun _ => .bind (storeArg_extends _ _ _) fun _ => ?_
      exact .bind (findArg_extends _) fun _ => ih _ _ _

theorem loadArgs_extends (args : List Arg) : Extends (loadArgs args) := by
  induction args with
  | nil => exact .stop _
  | cons arg rest ih =>
    cases arg with
    | uninit => exact .stop _
    | null => exact .pure _
    | str p => exact .bind (loadString_extends _) fun _ => .bind ih fun _ => .pure _

end Extends

section Confined
variable {A : Stop → Prop} {w : World}

/-- A vector that takes up all its slots is the one way out of the arguments. -/
theorem fillArgs_confined (remaining : Remaining w.state next strings)
    (filled_to : filled.length = base) (space : maxargs = tail.length) (few : maxargs < MAX_ARGS)
    (overflows : maxargs ≤ strings.length → A .overflow) :
    Confined A (fillArgs maxargs base (filled ++ tail) next) w := by
  obtain ⟨mem, pointers, ran, at_, -⟩ :=
    fillLoop_remaining remaining filled_to (Nat.le_of_eq space)
  have same := at_.length_eq
  rw [List.length_take] at same
  apply Confined.after (fillLoop_extends _ _ _ _ _) ran
  have below : pointers.length ≠ MAX_ARGS := by omega
  simp only [if_neg below]
  apply Blind.confined
  unfold storeArg
  split
  · exact .pure _
  · rename_i behind
    apply Blind.stop
    apply overflows
    simp [filled_to, argsOf] at behind
    omega

/-- Both children: a vector is built from the arguments that are left, and used. -/
theorem vector_confined (prepared : Prepared w.state next pointers values)
    (remaining : Remaining w.state next strings) (some_stored : 0 < pointers.length)
    (slots : pointers.length ≤ MAX_ARGS)
    (overflows : MAX_ARGS ≤ pointers.length + strings.length → A .overflow)
    {use : List Arg → Proc Unit}
    (uses : ∀ mem args, List.Forall₂ (Points mem) pointers values →
      (∀ v : World, v.state = mem → loadArgs args v = (.ok (values ++ strings), v)) →
      ∀ v : World, v.state = mem → Confined A (use args) v) :
    Confined A (fillArgs (MAX_ARGS - pointers.length) pointers.length
      (pointers.map .str ++ List.replicate (MAX_ARGS - pointers.length) .uninit) next >>= use) w := by
  have space : MAX_ARGS - pointers.length =
      (List.replicate (MAX_ARGS - pointers.length) Arg.uninit).length := List.length_replicate.symm
  have below : MAX_ARGS - pointers.length < MAX_ARGS := by
    have positive : 0 < MAX_ARGS := by decide
    omega
  apply Confined.bind (fillArgs_confined remaining (List.length_map _) space below
    fun full => overflows (by omega))
  intro args v ran
  by_cases few : pointers.length + strings.length < MAX_ARGS
  · obtain ⟨mem, _, filled, points, loads⟩ :=
      fillArgs_vector prepared remaining some_stored few
    cases ran.symm.trans filled
    exact uses mem _ points loads _ rfl
  · obtain ⟨mem, overflow⟩ :=
      fillArgs_overflow remaining (List.length_map _) space below (by omega)
    cases ran.symm.trans overflow

variable (others : ∀ e : Stop, e.regular = true → A e)
include others

theorem execveat_confined (loaded : loadArgs args w = (.ok argv, w)) (dirfd : Int)
    (path : List UInt8) (flags : Nat) : Confined A (execveat dirfd path args flags) w := by
  refine .after (loadArgs_extends _) loaded (Blind.confined ?_ w)
  apply Blind.bind (syscall_blind others _)
  intro reply
  split
  · exact .pure _
  · exact .stop (others _ rfl)

theorem execBusybox_confined
    (loads : ∀ v : World, v.state = w.state → loadArgs args v = (.ok argv, v)) (env : Env) :
    Confined A (execBusybox env args) w := by
  apply Confined.blind (openConsole_blind others _ _ _ _)
  intro _ v first
  apply Confined.blind (syscheck_blind others _ _ _)
  intro _ u second
  apply Confined.bind (execveat_confined others (loads u (second.trans first)) _ _ _)
  intro execres v _
  exact (writeErr_blind others _ _).confined v

theorem execMemrun_confined (at_path : StringAt w.state path name)
    (loads : ∀ v : World, v.state = w.state → loadArgs args v = (.ok argv, v)) (env : Env) :
    Confined A (execMemrun env path args) w := by
  apply Confined.blind (openConsole_blind others _ _ _ _)
  intro _ v first
  apply Confined.blind (syscall_blind others _)
  intro memfd v second
  have named : StringAt v.state path name := by rwa [second, first]
  apply Confined.after (loadString_extends _) (loadString_line named)
  apply Confined.blind (syscheck_blind others _ _ _)
  intro infd v third
  apply Confined.blind (syscheck_blind others _ _ _)
  intro stats v fourth
  apply Confined.blind (syscheck_blind others _ _ _)
  intro _ v fifth
  apply Confined.blind (syscheck_blind others _ _ _)
  intro _ v sixth
  have same := (((sixth.trans fifth).trans fourth).trans third).trans (second.trans first)
  apply Confined.bind (execveat_confined others (loads v same) _ _ _)
  intro execres v _
  exact (writeErr_blind others _ _).confined v

theorem busyboxChild_confined (at_command : StringAt w.state command name)
    (remaining : Remaining w.state next strings)
    (before : ∀ q ∈ next, command + name.length < q)
    (overflows : MAX_ARGS ≤ 2 + strings.length → A .overflow) (env : Env) :
    Confined A (busyboxChild env command next) w := by
  have prepared : Prepared w.state next [.literal (ascii "/busybox"), .line command]
      [ascii "/busybox", name] := by
    refine .cons ⟨rfl, nofun⟩ (.cons ⟨at_command, ?_⟩ .nil)
    rintro p ⟨⟩ q found
    exact .inl (before q found)
  refine vector_confined prepared remaining (Nat.succ_pos 1) (show 2 ≤ MAX_ARGS by decide)
    overflows ?_
  rintro mem args points loads v rfl
  exact execBusybox_confined others loads env

theorem memrunChild_confined (at_path : StringAt w.state path name)
    (at_next : StringAt w.state next rest) (apart : path + name.length < next ∨ rest = [])
    (overflows : MAX_ARGS ≤ 1 + (fields rest).length → A .overflow) (env : Env) :
    Confined A (memrunChild env path next) w := by
  have prepared : Prepared w.state (some next) [.line path] [name] := by
    refine .cons ⟨at_path, ?_⟩ .nil
    rintro p ⟨⟩ q ⟨⟩
    rcases apart with apart | empty
    · exact .inl apart
    · exact .inr (empty ▸ at_next)
  refine vector_confined prepared (.some at_next) (Nat.succ_pos 0) (show 1 ≤ MAX_ARGS by decide)
    overflows ?_
  rintro mem args points loads v rfl
  cases points with
  | cons at_path _ => exact execMemrun_confined others at_path loads env

theorem busybox_confined (at_command : StringAt w.state command name)
    (at_next : StringAt w.state next rest) (apart : command + name.length < next ∨ rest = [])
    (overflows : MAX_ARGS ≤ 2 + (tokens rest).length → A .overflow) (env : Env) :
    Confined A (busybox env command next) w := by
  obtain ⟨found, ran, remaining, beyond⟩ := findArg_remaining at_next
  apply Confined.after (findArg_extends _) ran
  apply Confined.blind (syscall_blind others _)
  intro tid v same
  split
  · exact (busyboxParent_blind others _ _).confined v
  · split
    · rw [← same] at at_command remaining
      refine busyboxChild_confined others at_command remaining ?_ overflows env
      intro q member
      obtain ⟨behind, nonempty⟩ := beyond q member
      rcases apart with apart | empty
      · omega
      · exact absurd empty nonempty
    · exact (writeErr_blind others _ _).confined v

theorem memrunFile_confined (at_path : StringAt w.state path name)
    (at_next : StringAt w.state next rest) (apart : path + name.length < next ∨ rest = [])
    (overflows : MAX_ARGS ≤ 1 + (fields rest).length → A .overflow) (env : Env) :
    Confined A (memrunFile env path next) w := by
  apply Confined.blind (syscall_blind others _)
  intro tid v same
  split
  · exact (memrunParent_blind others _ _).confined v
  · split
    · rw [← same] at at_path at_next
      exact memrunChild_confined others at_path at_next apart overflows env
    · exact (writeErr_blind others _ _).confined v

theorem dirlist_confined (malformed : A .malformed) (points : Points w.state path s) :
    Confined A (dirlist path) w := by
  apply Confined.after (loadString_extends _) (loadString_spec points)
  apply Confined.blind (syscall_blind others _)
  intro rootdir v same
  split
  · apply Confined.blind (writeStr_blind others _)
    intro _ u same'
    have again : Points u.state path s := by rwa [same', same]
    refine .after (loadString_extends _) (loadString_spec again) (Blind.confined ?_ u)
    refine .bind (writeStr_blind others _) fun _ => .bind (writeStr_blind others _) fun _ => ?_
    exact .bind (writeInt_blind others _) fun _ => writeStr_blind others _
  · apply Blind.confined
    exact .bind .budget fun _ => dirlistLoop_blind others malformed _ _

theorem catFile_confined (points : Points w.state path s) : Confined A (catFile path) w := by
  refine .after (loadString_extends _) (loadString_spec points) (Blind.confined ?_ w)
  apply Blind.bind (syscall_blind others _)
  intro fd
  split
  · exact writeErr_blind others _ _
  · refine .bind .budget fun _ => .bind (catLoop_blind others _ _ _) fun result => ?_
    split
    · exact writeErr_blind others _ _
    · exact .pure _

end Confined

/-- The strings a line makes the vector of `execveat` hold. -/
def vectorOf (line : List UInt8) : List (List UInt8) :=
  match tokens line with
  | [] => []
  | name :: others =>
      match builtins.lookup name, others with
      | none, _ => ascii "/busybox" :: name :: others
      | some .memrun, path :: _ => path :: fields (restLine (restLine line))
      | some _, _ => []

section Commands
variable {A : Stop → Prop} {w : World} (others : ∀ e : Stop, e.regular = true → A e)
include others

theorem cmdLs_confined (malformed : A .malformed) (at_next : StringAt w.state next rest) :
    Confined A (cmdLs next) w := by
  cases split : tokens rest with
  | nil =>
    apply Confined.after (findArg_extends _) (findArg_none at_next split)
    exact dirlist_confined others malformed (show Points _ (.literal (ascii "/")) _ from rfl)
  | cons path more =>
    obtain ⟨dir, _, mem, arg, -⟩ := nextArg at_next split
    apply Confined.after (findArg_extends _) arg.found
    apply Confined.after (terminateArg_extends _) arg.terminated
    exact dirlist_confined others malformed (show Points _ (.line dir) _ from arg.at_arg)

theorem cmdCat_confined (at_next : StringAt w.state next rest) : Confined A (cmdCat next) w := by
  cases split : tokens rest with
  | nil =>
    apply Confined.after (findArg_extends _) (findArg_none at_next split)
    exact (writeStr_blind others _).confined w
  | cons path more =>
    obtain ⟨p, _, mem, arg, -⟩ := nextArg at_next split
    apply Confined.after (findArg_extends _) arg.found
    apply Confined.after (terminateArg_extends _) arg.terminated
    exact catFile_confined others (show Points _ (.line p) _ from arg.at_arg)

theorem cmdMemrun_confined (at_next : StringAt w.state next rest)
    (overflows : ∀ path more, tokens rest = path :: more →
      MAX_ARGS ≤ 1 + (fields (restLine rest)).length → A .overflow) (env : Env) :
    Confined A (cmdMemrun env next) w := by
  cases split : tokens rest with
  | nil =>
    apply Confined.after (findArg_extends _) (findArg_none at_next split)
    exact (writeStr_blind others _).confined w
  | cons path more =>
    obtain ⟨p, _, mem, arg, -⟩ := nextArg at_next split
    apply Confined.after (findArg_extends _) arg.found
    apply Confined.after (terminateArg_extends _) arg.terminated
    exact memrunFile_confined others arg.at_arg arg.at_rest arg.apart (overflows path more split) env

omit others in
theorem runCommand_confined (at_prog : StringAt w.state prog name)
    (clean : ∀ entry ∈ table, 0 ∉ entry.1)
    (listed : ∀ builtin, table.lookup name = some builtin → Confined A (builtin.func env next) w)
    (unlisted : table.lookup name = none → Confined A (busybox env prog next) w) :
    Confined A (runCommand env prog next table) w := by
  induction table with
  | nil => exact unlisted rfl
  | cons entry rest ih =>
    obtain ⟨entryName, builtin⟩ := entry
    have compared := streq_spec at_prog (clean _ List.mem_cons_self)
    apply Confined.after (streq_extends _ _) compared
    by_cases same : name = entryName
    · simp only [same, decide_true, if_true]
      exact listed builtin (by simp [same])
    · have skip : List.lookup name ((entryName, builtin) :: rest) = rest.lookup name := by
        rw [List.lookup_cons, beq_false_of_ne same]
      simp only [same, decide_false, Bool.false_eq_true, if_false]
      rw [skip] at listed unlisted
      exact ih (fun entry member => clean entry (List.mem_cons_of_mem _ member)) listed unlisted

/-- A command line, wherever it stands in the memory: what runs and how it ends depend
on nothing behind its NUL. Only a vector without room for its NULL and malformed
directory entries lead out of an array. -/
theorem processCommand_confined (at_args : StringAt w.state args line)
    (overflows : MAX_ARGS ≤ (vectorOf line).length → A .overflow)
    (lists : (tokens line).head? = some (ascii "ls") → A .malformed) (env : Env) :
    Confined A (processCommand env args) w := by
  cases split : tokens line with
  | nil =>
    apply Confined.after (findArg_extends _) (findArg_none at_args split)
    exact .pure _
  | cons name more =>
    obtain ⟨prog, next, mem, arg, left⟩ := nextArg at_args split
    apply Confined.after (findArg_extends _) arg.found
    apply Confined.after (terminateArg_extends _) arg.terminated
    simp only [vectorOf, split] at overflows
    apply runCommand_confined arg.at_arg builtins_clean
    · intro builtin listed
      rw [listed] at overflows
      cases builtin with
      | time => exact (cmdTime_blind others env).confined _
      | ls =>
        refine cmdLs_confined others (lists ?_) arg.at_rest
        obtain ⟨before, after, table, -⟩ := List.lookup_eq_some_iff.mp listed
        have member : (name, Builtin.ls) ∈ builtins := by simp [table]
        simpa [split, builtins] using member
      | cat => exact cmdCat_confined others arg.at_rest
      | env => exact (cmdEnv_blind others env).confined _
      | exit => exact Blind.confined (.stop (others .poweredOff rfl)) _
      | usage => exact (cmdUsage_blind others env).confined _
      | memrun =>
        refine cmdMemrun_confined others arg.at_rest ?_ env
        intro path rest arguments full
        rw [left] at arguments
        rw [arguments] at overflows
        apply overflows
        simpa [Nat.add_comm] using full
    · intro unlisted
      rw [unlisted] at overflows
      refine busybox_confined others arg.at_arg arg.at_rest arg.apart ?_ env
      intro full
      apply overflows
      rw [left] at full
      simp only [List.length_cons]
      omega

end Commands
end MinLinux.Command
