import Mathlib.Data.List.TakeWhile
import MinLinux.Text
import MinLinux.Init.EventLoop

/-! Console input. In canonical mode a read returns one line with its newline, or a
full buffer when the line does not end in time; `process_input` decides each of these
chunks alone. -/
namespace MinLinux.Init.Console
open EventLoop Text

/-- One read of 1024 bytes; `none` while the line is still being typed. -/
def canonicalRead (stream : List UInt8) : Option (List UInt8 × List UInt8) :=
  match (stream.take 1024).idxOf? 10 with
  | some i => some (stream.take (i + 1), stream.drop (i + 1))
  | none =>
      if 1024 ≤ stream.length then some (stream.take 1024, stream.drop 1024) else none

/-- The read has stored its bytes, and its completion is handled. -/
def receive (s : State) (chunk : List UInt8) : State :=
  processInput { s with buffer := chunk ++ s.buffer.drop chunk.length } 0
    (Int32.ofNat chunk.length)

/-- The string `process_command` is called with. -/
def commandString (s : State) : Option (List UInt8) :=
  match s.pc with
  | .command _ => cstring s.buffer
  | _ => none

/-- The strings passed to `process_command` while the stream is read, which leaves the
buffer as `command` says. -/
def session (command : List UInt8 → List UInt8) : Nat → State → List UInt8 → List (List UInt8)
  | 0, _, _ => []
  | fuel + 1, s, stream =>
      match canonicalRead stream with
      | none => []
      | some (chunk, rest) =>
          let handled := receive s chunk
          (commandString handled).toList ++
            session command fuel { handled with buffer := command handled.buffer } rest

/-- The lines of a stream that are ended by a newline. -/
def terminatedLines (stream : List UInt8) : List (List UInt8) :=
  (stream.splitOnP (· == 10)).dropLast

/-- A line that fits in the buffer together with its newline. -/
def fits (line : List UInt8) : Bool := decide (line.length + 1 ≤ 1024)

/-- What reaches `process_command` of a line: the bytes its last read returned, up to
a NUL among them. -/
def fragment (line : List UInt8) : List UInt8 :=
  (line.drop (1024 * (line.length / 1024))).takeWhile (· != 0)

theorem fragment_of_fits (short : fits line = true) : fragment line = line.takeWhile (· != 0) := by
  have small : line.length / 1024 = 0 := Nat.div_eq_of_lt (of_decide_eq_true short)
  rw [fragment, small]
  rfl

theorem fragment_append (full : big.length = 1024) : fragment (big ++ line) = fragment line := by
  have skipped : 1024 * ((big ++ line).length / 1024) =
      big.length + 1024 * (line.length / 1024) := by
    rw [List.length_append, full]
    omega
  rw [fragment, skipped, List.drop_length_add_append]
  rfl

section Lines
variable {stream rest : List UInt8}

theorem terminatedLines_line (unbroken : 10 ∉ line) (rest : List UInt8) :
    terminatedLines (line ++ 10 :: rest) = line :: terminatedLines rest := by
  rw [terminatedLines, List.splitOnP_append_cons_of_forall_mem ?_ 10 rfl,
    List.dropLast_cons_of_ne_nil (List.splitOnP_ne_nil _ _)]
  · rfl
  · intro x member
    exact beq_false_of_ne fun same => unbroken (same ▸ member)

theorem terminatedLines_open (unbroken : 10 ∉ stream) : terminatedLines stream = [] := by
  rw [terminatedLines, List.splitOnP_eq_singleton]
  · rfl
  · intro x member
    exact beq_false_of_ne fun same => unbroken (same ▸ member)

/-- A part without a newline belongs to the line that follows it. -/
theorem splitOnP_unbroken (unbroken : 10 ∉ big) (rest : List UInt8) :
    (big ++ rest).splitOnP (· == 10) =
      (rest.splitOnP (· == 10)).modifyHead (big ++ ·) := by
  induction big with
  | nil =>
    rw [List.nil_append]
    cases rest.splitOnP (· == 10) <;> rfl
  | cons c tail ih =>
    simp only [List.mem_cons, not_or] at unbroken
    rw [List.cons_append, List.splitOnP_cons_eq_if_modifyHead,
      if_neg (by simpa using Ne.symm unbroken.1), ih unbroken.2]
    cases rest.splitOnP (· == 10) <;> rfl

theorem fragments_append (full : big.length = 1024) (unbroken : 10 ∉ big) (rest : List UInt8) :
    (terminatedLines (big ++ rest)).map fragment = (terminatedLines rest).map fragment := by
  rw [terminatedLines, splitOnP_unbroken unbroken, terminatedLines]
  match rest.splitOnP (· == 10) with
  | [] => rfl
  | [_] => rfl
  | first :: second :: others =>
    simp only [List.modifyHead_cons, List.dropLast_cons_cons, List.map_cons, fragment_append full]

end Lines

section Reads
variable {stream : List UInt8} {s : State}

/-- A read returns the next line, or a full buffer of a longer one, or waits. -/
theorem canonicalRead_cases (stream : List UInt8) :
    (∃ line rest, 10 ∉ line ∧ fits line = true ∧ stream = line ++ 10 :: rest ∧
      canonicalRead stream = some (line ++ [10], rest)) ∨
    (∃ big rest, big.length = 1024 ∧ 10 ∉ big ∧ stream = big ++ rest ∧
      canonicalRead stream = some (big, rest)) ∨
    (10 ∉ stream ∧ canonicalRead stream = none) := by
  unfold canonicalRead
  cases position : (stream.take 1024).idxOf? 10 with
  | some i =>
    obtain ⟨within, newline, earlier⟩ := List.idxOf?_eq_some_iff.mp position
    rw [List.length_take] at within
    have split : stream = stream.take i ++ 10 :: stream.drop (i + 1) := by
      conv_lhs => rw [← List.take_append_drop i stream, List.drop_eq_getElem_cons (by omega)]
      rw [List.getElem_take] at newline
      rw [newline]
    refine .inl ⟨stream.take i, stream.drop (i + 1), ?_, ?_, split, ?_⟩
    · intro member
      obtain ⟨j, small, same⟩ := List.getElem_of_mem member
      rw [List.length_take] at small
      apply earlier j (by omega)
      rw [List.getElem_take] at same ⊢
      exact same
    · rw [fits, List.length_take]
      exact decide_eq_true (by omega)
    · have taken : stream.take (i + 1) = stream.take i ++ [10] := by
        rw [List.take_succ_eq_append_getElem (by omega)]
        rw [List.getElem_take] at newline
        rw [newline]
      simp only [taken]
  | none =>
    have unbroken := List.idxOf?_eq_none_iff.mp position
    by_cases full : 1024 ≤ stream.length
    · refine .inr (.inl ⟨stream.take 1024, stream.drop 1024, ?_, unbroken, ?_, if_pos full⟩)
      · rw [List.length_take]
        omega
      · rw [List.take_append_drop]
    · rw [List.take_of_length_le (by omega)] at unbroken
      exact .inr (.inr ⟨unbroken, if_neg full⟩)

theorem processInput_last (positive : 0 < n) (small : n ≤ 1024)
    (last : s.buffer[n - 1]? = some c) :
    processInput s 0 (Int32.ofNat n) =
      if c = 10 then { s with pc := .command 0, buffer := s.buffer.set (n - 1) 0 }
      else { s with pc := .prompt 0 } := by
  have value : (Int32.ofNat n).toInt = n := Int32.toInt_ofNat_of_lt (by omega)
  have greater : 0 < Int32.ofNat n := by
    rw [Int32.lt_iff_toInt_lt, value]
    exact Int.ofNat_lt.mpr positive
  have index : ((Int32.ofNat n).toInt - 1).toNat = n - 1 := by
    rw [value]
    omega
  rw [processInput, if_pos greater, index, last]

theorem receive_line (short : fits line = true) :
    ∃ tail, receive s (line ++ [10]) =
      { s with pc := .command 0, buffer := line ++ 0 :: tail } := by
  have small := of_decide_eq_true short
  refine ⟨s.buffer.drop (line.length + 1), ?_⟩
  rw [receive, List.length_append, List.length_singleton, processInput_last (Nat.succ_pos _) small
    (c := 10) (by simp)]
  simp

theorem receive_full (full : big.length = 1024) (unbroken : 10 ∉ big) :
    receive s big = { s with pc := .prompt 0, buffer := big ++ s.buffer.drop 1024 } := by
  have last : big[1023]? = some big[1023] := List.getElem?_eq_getElem (by omega)
  have other : big[1023] ≠ 10 := fun same => unbroken (same ▸ List.getElem_mem _)
  rw [receive, full, processInput_last (c := big[1023]) (by decide) (Nat.le_refl _)
    (by rw [List.getElem?_append_left (by omega), last]), if_neg other]

theorem cstring_takeWhile (line tail : List UInt8) :
    cstring (line ++ 0 :: tail) = some (line.takeWhile (· != 0)) := by
  induction line with
  | nil => rfl
  | cons c rest ih =>
    rw [List.cons_append, cstring]
    by_cases zero : c = 0
    · rw [if_pos zero, List.takeWhile_cons_of_neg (by simp [zero])]
    · rw [if_neg zero, ih, List.takeWhile_cons_of_pos (by simp [zero])]
      rfl

end Reads

/-- Every terminated line is passed on once, but only the fragment of it that the last
read returned. -/
theorem session_eq (command : List UInt8 → List UInt8) (s : State)
    (enough : stream.length ≤ fuel) :
    session command fuel s stream = (terminatedLines stream).map fragment := by
  induction fuel generalizing s stream with
  | zero =>
    rw [List.eq_nil_of_length_eq_zero (Nat.le_zero.mp enough)]
    rfl
  | succ fuel ih =>
    rw [session]
    rcases canonicalRead_cases stream with
      ⟨line, rest, unbroken, short, rfl, read⟩ | ⟨big, rest, full, unbroken, rfl, read⟩ |
      ⟨unbroken, read⟩
    · obtain ⟨tail, received⟩ := receive_line (s := s) short
      rw [List.length_append, List.length_cons] at enough
      simp only [read, received, commandString, cstring_takeWhile, Option.toList_some]
      rw [ih _ (by omega), terminatedLines_line unbroken, List.map_cons, fragment_of_fits short]
      rfl
    · rw [List.length_append] at enough
      simp only [read, receive_full full unbroken, commandString, Option.toList_none,
        List.nil_append]
      rw [ih _ (by omega), fragments_append full unbroken]
    · rw [read, terminatedLines_open unbroken]
      rfl

theorem fragment_whole (short : fits line = true) (clean : 0 ∉ line) : fragment line = line := by
  rw [fragment_of_fits short, List.takeWhile_eq_self_iff]
  intro c member
  simpa using fun same : c = 0 => clean (same ▸ member)

theorem clean_of_fragment (whole : fragment line = line) : 0 ∉ line := by
  intro zero
  rw [← whole] at zero
  have passed := List.all_eq_true.mp List.all_takeWhile 0 zero
  exact absurd passed (by decide)

/-- Exactly the lines that fit are executed, each once and in order, if and only if
every line that the stream ends with a newline fits in the buffer and holds no NUL:
the tail of a longer line is executed as a command of its own. -/
theorem whole_lines_iff (command : List UInt8 → List UInt8) (s : State)
    (enough : stream.length ≤ fuel) :
    session command fuel s stream = (terminatedLines stream).filter fits ↔
      ∀ line ∈ terminatedLines stream, fits line = true ∧ 0 ∉ line := by
  rw [session_eq command s enough]
  constructor
  · intro same
    have all : ∀ line ∈ terminatedLines stream, fits line = true := by
      have lengths := congrArg List.length same
      rw [List.length_map] at lengths
      exact List.length_filter_eq_length_iff.mp lengths.symm
    rw [List.filter_eq_self.mpr all] at same
    intro line member
    refine ⟨all line member, clean_of_fragment ?_⟩
    exact List.map_inj_left.mp (same.trans (List.map_id _).symm) line member
  · intro all
    rw [List.filter_eq_self.mpr fun line member => (all line member).1]
    refine (List.map_congr_left fun line member => ?_).trans (List.map_id _)
    exact fragment_whole (all line member).1 (all line member).2

/-- Two short lines, the second of them empty. -/
theorem whole_lines_two :
    session id 4 (start 5 (fun _ => 0) (fun _ => ⟨0, 0, 0⟩)) [108, 115, 10, 10] =
      (terminatedLines [108, 115, 10, 10]).filter fits ∧
    (terminatedLines [108, 115, 10, 10]).filter fits = [[108, 115], []] :=
  ⟨(whole_lines_iff id _ (by decide)).mpr (by decide), by decide⟩

theorem long_line_tail (command : List UInt8 → List UInt8) (s : State) (full : big.length = 1024)
    (unbroken : 10 ∉ big) :
    session command 1027 s (big ++ [114, 109, 10]) = [[114, 109]] ∧
    (terminatedLines (big ++ [114, 109, 10])).filter fits = [] := by
  have split : big ++ [114, 109, 10] = (big ++ [114, 109]) ++ 10 :: [] := by simp
  have line : 10 ∉ big ++ [114, 109] := by simp [unbroken]
  have long : fits (big ++ [114, 109]) = false := by simp [fits, full]
  constructor
  · rw [session_eq command s (by simp [full]), fragments_append full unbroken]
    decide
  · rw [split, terminatedLines_line line, List.filter_cons_of_neg (by simp [long])]
    rfl

/-- A line with `rm` behind 1024 other bytes: its tail is executed. -/
theorem long_line_tail_executed :
    session id 1027 (start 5 (fun _ => 0) (fun _ => ⟨0, 0, 0⟩))
        (List.replicate 1024 97 ++ [114, 109, 10]) = [[114, 109]] ∧
    session id 1027 (start 5 (fun _ => 0) (fun _ => ⟨0, 0, 0⟩))
        (List.replicate 1024 97 ++ [114, 109, 10]) ≠
      (terminatedLines (List.replicate 1024 97 ++ [114, 109, 10])).filter fits := by
  have unbroken : 10 ∉ List.replicate 1024 (97 : UInt8) := by
    intro newline
    exact absurd (List.eq_of_mem_replicate newline) (by decide)
  obtain ⟨executed, expected⟩ := long_line_tail id (start 5 (fun _ => 0) (fun _ => ⟨0, 0, 0⟩))
    List.length_replicate unbroken
  refine ⟨executed, ?_⟩
  rw [executed, expected]
  exact List.cons_ne_nil _ _

end MinLinux.Init.Console
