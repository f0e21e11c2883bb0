import MinLinux.Command.System

/-! What the console output of numbers amounts to: one write of the decimal form. -/
namespace MinLinux.Command
open Dialog Numeral Text Util

section Strings

theorem ltoa_cstring (value : Int64) (buffer : List UInt8) (sized : buffer.length = 21) :
    cstring ((ltoa buffer value).2.drop (ltoa buffer value).1.offset) =
      some (signed value.toInt) := by
  obtain ⟨-, -, short, same⟩ := ltoa_spec value sized
  rw [same]
  simp only
  rw [List.append_assoc, List.drop_append_of_le_length, List.drop_of_length_le, List.nil_append]
  · exact cstring_append (signed_clean _) []
  all_goals
    rw [List.length_take]
    omega

/-- The static buffer of `ltoa` is there when it has returned. -/
theorem ltoa_string (value : Int64) (buffer : List UInt8) (sized : buffer.length = 21) :
    (ltoa buffer value).1.string (ltoa buffer value).2 = some (signed value.toInt) := by
  have static : (ltoa buffer value).1.storage = .static := by
    rw [(ltoa_spec value sized).2.2.2]
  rw [Pointer.string, static]
  exact ltoa_cstring value buffer sized

theorem toInt64_ofInt (value : Int64) : (UInt64.ofInt value.toInt).toInt64 = value := by
  have wrapped : (UInt64.ofInt value.toInt).toInt64 = Int64.ofInt value.toInt := by
    apply Int64.toBitVec.inj
    apply BitVec.eq_of_toNat_eq
    change (value.toInt % 2 ^ 64).toNat % 2 ^ 64 = (BitVec.ofInt 64 value.toInt).toNat
    rw [BitVec.toNat_ofInt]
    omega
  rw [wrapped, Int64.ofInt_toInt]

/-- A number is written as its decimal form. -/
theorem writeInt_eq (value : UInt64) :
    writeInt value = writeStr (signed value.toInt64.toInt) := by
  have digits := ltoa_string value.toInt64 (List.replicate 21 0) rfl
  simp only [writeInt, digits]

/-- Of the number of a failed system call nothing is written: `SYSCHECK` reads where it was. -/
theorem syscheck_failed (env : Env) (line : String) (call : Call) (w : World)
    (failed : reply.res < 0) (answers : w.answers = reply :: first :: second :: third :: later) :
    syscheck env line call w = (.error (.exited (UInt16.ofInt (-reply.res))), { w with
      answers := later
      asked := w.asked ++ [(call, reply),
        (.write STDOUT (env.file ++ ascii (":" ++ line ++ " syscall error ")), first),
        (.write STDOUT env.stale, second), (.write STDOUT (ascii "\n"), third)] }) := by
  obtain ⟨state, _, asked⟩ := w
  subst answers
  have said : ∀ answer answers asked bytes,
      Macro.writeStr Call.write bytes (⟨state, answer :: answers, asked⟩ : World) =
        (.ok (), ⟨state, answers, asked ++ [(.write STDOUT bytes, answer)]⟩) := fun _ _ _ _ => rfl
  have first_asked : Dialog.ask Stop.starved call
      (⟨state, reply :: first :: second :: third :: later, asked⟩ : World) =
      (.ok reply, ⟨state, first :: second :: third :: later, asked ++ [(call, reply)]⟩) := rfl
  rw [syscheck, Macro.syscheck, bind_ok _ first_asked, if_pos failed, bind_ok _ (said _ _ _ _)]
  simp only [intToStr_dangles, Option.getD_none]
  rw [bind_ok _ (said _ _ _ _), bind_ok _ (said _ _ _ _)]
  simp only [List.append_assoc, List.cons_append, List.nil_append]
  rfl

end Strings

/-- What reached the console: of each write as many bytes as it returned. -/
def consoleOutput (asked : List Event) : List UInt8 :=
  asked.flatMap fun e =>
    match e.1 with
    | .write fd bytes => if fd = STDOUT then bytes.take e.2.res.toNat else []
    | _ => []

theorem consoleOutput_append (first later : List Event) :
    consoleOutput (first ++ later) = consoleOutput first ++ consoleOutput later :=
  List.flatMap_append

/-- What the printing of a value is to be: the string of either conversion is its decimal
form, the buffer is never used up, and `write_int` writes that form. -/
structure Prints (stack old : List UInt8) (value : Int64) : Prop where
  string : ∃ s, IsDecimal s value.toInt ∧
    (intToStr stack value).str.string (intToStr stack value).val = some s ∧
    (ltoa old value).1.string (ltoa old value).2 = some s
  room : ∀ buffer ∈ [stack, old],
    (digits 20 (magnitude value) (buffer.set 20 0)).exhausted = false ∧
    0 < (digits 20 (magnitude value) (buffer.set 20 0)).pos
  written : ∀ (w : World) reply later, w.answers = reply :: later → ∃ s, IsDecimal s value.toInt ∧
    writeInt (UInt64.ofInt value.toInt) w = (.ok (), { w with
      answers := later
      asked := w.asked ++ [(.write STDOUT s, reply)] })

/-- Integer printing. The string of `int_to_str` is never to be had, since its pointer is into
an object that is gone. The bytes it returns are right all the same, as are the string of
`ltoa` and what `write_int` writes: the decimal form, at the end of a buffer that is never
used up. -/
theorem integer_printing (value : Int64) (stack old : List UInt8) (room : stack.length = 21)
    (sized : old.length = 21) :
    ¬Prints stack old value ∧
    (∀ object, (intToStr stack value).str.string object = none) ∧
    IsDecimal (signed value.toInt) value.toInt ∧
    (∀ buffer : List UInt8, buffer.length = 21 →
      (digits 20 (magnitude value) (buffer.set 20 0)).exhausted = false ∧
      0 < (digits 20 (magnitude value) (buffer.set 20 0)).pos ∧
      ∃ p, p + (signed value.toInt).length = 20 ∧
        intToStr buffer value =
          ⟨⟨.automatic, p⟩, buffer.take p ++ signed value.toInt ++ [0]⟩ ∧
        ltoa buffer value = (⟨.static, p⟩, buffer.take p ++ signed value.toInt ++ [0])) ∧
    cstring ((intToStr stack value).val.drop (intToStr stack value).str.offset) =
      some (signed value.toInt) ∧
    (ltoa old value).1.string (ltoa old value).2 = some (signed value.toInt) ∧
    ∀ (w : World) reply later, w.answers = reply :: later →
      writeInt (UInt64.ofInt value.toInt) w =
        (.ok (), { w with
          answers := later
          asked := w.asked ++ [(.write STDOUT (signed value.toInt), reply)] }) := by
  refine ⟨?_, fun object => intToStr_dangles stack object value, signed_isDecimal _, ?_, ?_,
    ltoa_string value old sized, ?_⟩
  · intro prints
    obtain ⟨s, -, dangling, -⟩ := prints.string
    rw [intToStr_dangles] at dangling
    cases dangling
  · intro buffer sized
    obtain ⟨unused, inside, short, same⟩ := ltoa_spec value sized
    refine ⟨unused, inside, _, Nat.sub_add_cancel short, ?_, same⟩
    rw [intToStr_eq, same]
  · rw [intToStr_eq]
    exact ltoa_cstring value stack room
  · intro w reply later answers
    have asked := ask_returns (e := Stop.starved) (q := Call.write STDOUT (signed value.toInt))
      |>.mpr ⟨later, answers, rfl⟩
    rw [writeInt_eq, toInt64_ofInt, writeStr, Macro.writeStr, bind_ok _ asked]
    rfl

/-- The widest value, in buffers that are full of other bytes. -/
theorem integer_printing_min : ∃ s, s = ascii "-9223372036854775808" ∧ IsDecimal s (-2 ^ 63) ∧
    cstring ((intToStr (List.replicate 21 77) Int64.minValue).val.drop
      (intToStr (List.replicate 21 77) Int64.minValue).str.offset) = some s ∧
    (ltoa (List.replicate 21 55) Int64.minValue).1.string
      (ltoa (List.replicate 21 55) Int64.minValue).2 = some s ∧
    ¬Prints (List.replicate 21 77) (List.replicate 21 55) Int64.minValue := by
  obtain ⟨broken, -, form, -, bytes, static, -⟩ :=
    integer_printing Int64.minValue (List.replicate 21 77) (List.replicate 21 55) rfl rfl
  have evaluated : cstring ((intToStr (List.replicate 21 77) Int64.minValue).val.drop
      (intToStr (List.replicate 21 77) Int64.minValue).str.offset) =
      some (ascii "-9223372036854775808") := by decide
  exact ⟨_, Option.some.inj (bytes.symm.trans evaluated), form, bytes, static, broken⟩

/-- The result of an `open` that finds no file, as `SYSCHECK` has it printed. -/
theorem integer_printing_dangles : ¬Prints (List.replicate 21 0) (List.replicate 21 0) (-2) ∧
    (ltoa (List.replicate 21 0) (-2)).1.string (ltoa (List.replicate 21 0) (-2)).2 =
      some (ascii "-2") ∧
    (intToStr (List.replicate 21 0) (-2)).str.string (intToStr (List.replicate 21 0) (-2)).val =
      none := by
  have dangling : (intToStr (List.replicate 21 0) (-2)).str.string
      (intToStr (List.replicate 21 0) (-2)).val = none := by decide
  refine ⟨?_, by decide, dangling⟩
  intro prints
  obtain ⟨s, -, found, -⟩ := prints.string
  cases dangling.symm.trans found

end MinLinux.Command
