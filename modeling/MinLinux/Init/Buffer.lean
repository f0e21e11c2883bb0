import MinLinux.Command.Confinement
import MinLinux.Init.Console
import MinLinux.Init.Spawn

/-! The global buffer of init/init.c between two reads. It is never cleared, yet a
command sees nothing of it but the bytes that were just read. -/
namespace MinLinux.Init.Buffer
open EventLoop Spawn Command Dialog Text

variable {bytes tail : List UInt8}

/-- The line as the commands find it: the newline has become its NUL. -/
def terminated (bytes : List UInt8) : List UInt8 := bytes.dropLast ++ [0]

/-- The command line in it, which a NUL among the bytes read ends early. -/
def commandLine (bytes : List UInt8) : List UInt8 := bytes.dropLast.takeWhile (· != 0)

theorem terminated_length (nonempty : bytes ≠ []) : (terminated bytes).length = bytes.length := by
  have positive := List.length_pos_iff.mpr nonempty
  rw [terminated, List.length_append, List.length_dropLast, List.length_singleton]
  omega

theorem stringAt_terminated (bytes tail : List UInt8) :
    StringAt (terminated bytes ++ tail) 0 (commandLine bytes) := by
  have ended := Console.cstring_takeWhile bytes.dropLast tail
  rw [StringAt, List.drop_zero, terminated, List.append_assoc]
  exact ended

/-- The NUL is stored over the last byte read. -/
theorem set_last (nonempty : bytes ≠ []) (tail : List UInt8) :
    (bytes ++ tail).set (bytes.length - 1) 0 = terminated bytes ++ tail := by
  have positive := List.length_pos_iff.mpr nonempty
  rw [List.set_append_left _ _ (by omega), terminated, List.dropLast_eq_take,
    List.set_eq_take_append_cons_drop, if_pos (by omega), Nat.sub_add_cancel positive,
    List.drop_length]

/-- A line that fits is handed on with a NUL in place of its newline. -/
theorem processInput_line (s : State) (cqe : UInt32) (res : Int32) (positive : 0 < res)
    (split : s.buffer = bytes ++ tail) (sized : (bytes.length : Int) = res.toInt)
    (newline : bytes.getLast? = some 10) :
    processInput s cqe res = { s with pc := .command cqe, buffer := terminated bytes ++ tail } := by
  have nonempty : bytes ≠ [] := by
    rintro rfl
    cases newline
  have count := List.length_pos_iff.mpr nonempty
  have last : (res.toInt - 1).toNat = bytes.length - 1 := by omega
  have found : s.buffer[bytes.length - 1]? = some 10 := by
    rw [split, List.getElem?_append_left (by omega), ← List.getLast?_eq_getElem?]
    exact newline
  have stored : s.buffer.set (bytes.length - 1) 0 = terminated bytes ++ tail := by
    rw [split, set_last nonempty]
  simp only [processInput, if_pos positive, last, found, if_true, stored]

/-- How the command of a line ends without an access outside of the line: the vector of its
child and the entries of a directory have stops of their own. -/
def EndsInside (command : List UInt8) : Stop → Prop
  | .fault => False
  | .overflow => MAX_ARGS ≤ (vectorOf command).length
  | .malformed => (tokens command).head? = some (ascii "ls")
  | _ => True

/-- What a command does to a line in front of anything else in memory. -/
theorem runLine_confined (env : Env) (bytes : List UInt8) (answers : List Reply) :
    (∀ tail, runLine env (terminated bytes ++ tail) answers =
      ((runLine env (terminated bytes) answers).1,
        (runLine env (terminated bytes) answers).2.extend tail)) ∧
    ∀ stop, (runLine env (terminated bytes) answers).1 = .error stop →
      EndsInside (commandLine bytes) stop := by
  have at_line : StringAt (terminated bytes) 0 (commandLine bytes) := by
    simpa using stringAt_terminated bytes []
  have confined : Confined (EndsInside (commandLine bytes)) (processCommand env 0)
      ⟨terminated bytes, answers, []⟩ := by
    apply processCommand_confined
    · intro stop regular
      cases stop <;> trivial
    · exact at_line
    · exact id
    · exact id
  exact ⟨confined.1, confined.2⟩

/-- A console read is all that its command sees and changes of the buffer. Whatever
stands behind the bytes read, the same calls are made with the same strings, the same
way of ending is reached, and it stays as it was; on those bytes alone, where any other
access would be a fault, there is none. Only a vector without room for its NULL
overflows, and only `ls` can meet malformed directory entries. -/
theorem console_read_confined (env : Env) (s : State) (cqe : UInt32) (res : Int32)
    (sized : s.buffer.length = 1024) (positive : 1 ≤ res.toInt) (bounded : res.toInt ≤ 1024)
    (newline : s.buffer[res.toInt.toNat - 1]? = some 10) :
    ∃ line command, line.length = res.toInt.toNat ∧ StringAt line 0 command ∧
      (∀ other, other.take res.toInt.toNat = s.buffer.take res.toInt.toNat →
        processInput { s with buffer := other } cqe res =
          { s with pc := .command cqe, buffer := line ++ other.drop res.toInt.toNat } ∧
        ∀ answers, runLine env (line ++ other.drop res.toInt.toNat) answers =
          ((runLine env line answers).1,
            (runLine env line answers).2.extend (other.drop res.toInt.toNat))) ∧
      ∀ answers, (runLine env line answers).2.state.length = res.toInt.toNat ∧
        (runLine env line answers).1 ≠ .error .fault ∧
        ((runLine env line answers).1 = .error .overflow → MAX_ARGS ≤ (vectorOf command).length) ∧
        ((runLine env line answers).1 = .error .malformed →
          (tokens command).head? = some (ascii "ls")) := by
  have taken : (s.buffer.take res.toInt.toNat).length = res.toInt.toNat := by
    rw [List.length_take]
    omega
  have last : (s.buffer.take res.toInt.toNat).getLast? = some 10 := by
    rw [List.getLast?_eq_getElem?, taken, List.getElem?_take_of_lt (by omega)]
    exact newline
  have nonempty : s.buffer.take res.toInt.toNat ≠ [] := by
    intro empty
    rw [empty] at last
    cases last
  have length := (terminated_length nonempty).trans taken
  have greater : 0 < res := Int32.lt_iff_toInt_lt.mpr positive
  refine ⟨terminated (s.buffer.take res.toInt.toNat), commandLine (s.buffer.take res.toInt.toNat),
    length, ?_, ?_, ?_⟩
  · simpa using stringAt_terminated (s.buffer.take res.toInt.toNat) []
  · intro other same
    constructor
    · apply processInput_line _ _ _ greater _ _ last
      · rw [← same]
        exact (List.take_append_drop _ _).symm
      · rw [taken]
        omega
    · intro answers
      exact (runLine_confined env _ answers).1 _
  · intro answers
    have ends := (runLine_confined env (s.buffer.take res.toInt.toNat) answers).2
    exact ⟨(runLine_length _ _ _).trans length, ends .fault, ends .overflow, ends .malformed⟩

/-- A short command in front of what a longer one left behind. -/
theorem console_read_confined_cat :
    ∃ line command, line.length = 6 ∧ StringAt line 0 command ∧ ∀ answers,
      runLine ⟨[], [], []⟩ (processInput { EventLoop.start 5 (fun _ => 0) (fun _ => ⟨0, 0, 0⟩) with
        buffer := [99, 97, 116, 32, 120, 10] ++ List.replicate 1018 120 } 0 6).buffer answers =
      ((runLine ⟨[], [], []⟩ line answers).1,
        (runLine ⟨[], [], []⟩ line answers).2.extend (List.replicate 1018 120)) := by
  have sized : ([99, 97, 116, 32, 120, 10] ++ List.replicate 1018 120 : List UInt8).length = 1024 := by
    rw [List.length_append, List.length_replicate]
    rfl
  obtain ⟨line, command, length, at_line, same, -⟩ := console_read_confined ⟨[], [], []⟩
    { EventLoop.start 5 (fun _ => 0) (fun _ => ⟨0, 0, 0⟩) with
      buffer := [99, 97, 116, 32, 120, 10] ++ List.replicate 1018 120 } 0 6
    sized (by decide) (by decide) rfl
  obtain ⟨handled, ran⟩ := same ([99, 97, 116, 32, 120, 10] ++ List.replicate 1018 120) rfl
  refine ⟨line, command, length, at_line, ?_⟩
  intro answers
  rw [handled]
  exact ran answers

end MinLinux.Init.Buffer
