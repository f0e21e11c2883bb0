import MinLinux.Command.Shell
import MinLinux.Init.Buffer

/-! A whole session at the console, as one process sees it. The reads of the console go
through one buffer that is never cleared; `transcript` answers them without any, and on
a console in canonical mode `interpret` goes by the lines typed. -/
namespace MinLinux.Init.Session
open Command Dialog Text Console

/-- What a read of the console stored at the start of the buffer. -/
structure Chunk where
  bytes : List UInt8
  nonempty : bytes ≠ []
  bounded : bytes.length ≤ 1024

/-- The completion of a read: no bytes come with the end of input or an error. -/
inductive Completion where
  | read (chunk : Chunk)
  | ended (res : Int32) (empty : res ≤ 0)

def Completion.res : Completion → Int32
  | .read chunk => Int32.ofNat chunk.bytes.length
  | .ended res _ => res

def Completion.data : Completion → List UInt8
  | .read chunk => chunk.bytes
  | .ended _ _ => []

/-- The kernel stores what it has read. -/
def store (data : List UInt8) : Proc Unit := do
  let buffer ← Dialog.get
  Dialog.put (data ++ buffer.drop data.length)

/-- `ERREXIT` on a line of init.c. -/
def errexit (file : List UInt8) (line msg : String) : Proc Unit := do
  writeStr (file ++ ascii (":" ++ line ++ " " ++ msg))
  Dialog.stop .poweredOff

/-- `process_input` up to the next prompt, with the messages it writes. -/
def processInput (file : List UInt8) (env : Env) (res : Int32) : Proc Unit :=
  if 0 < res then do
    let buffer ← Dialog.get
    let last ← loadByte .fault buffer (res.toInt - 1).toNat
    if last ≠ 10 then writeStr (ascii "No end of line.\n")
    else
      Dialog.put (buffer.set (res.toInt - 1).toNat 0)
      processCommand env 0
  else if res = 0 then errexit file "152" "End of console input.\n"
  else errexit file "154" "Error reading file.\n"

/-- The completions of the console reads, handled one after the other. -/
def session (file : List UInt8) (env : Env) (reads : List Completion) : Proc Unit :=
  reads.forM fun completion => do
    store completion.data
    processInput file env completion.res

/-- What the bytes of one read mean. -/
def respondRead (env : Env) (bytes : List UInt8) : Proc Unit :=
  if bytes.getLast? = some 10 then shell env (Buffer.commandLine bytes)
  else writeStr (ascii "No end of line.\n")

def respond (file : List UInt8) (env : Env) : Completion → Proc Unit
  | .read chunk => respondRead env chunk.bytes
  | .ended res _ =>
      if res = 0 then errexit file "152" "End of console input.\n"
      else errexit file "154" "Error reading file.\n"

def transcript (file : List UInt8) (env : Env) (reads : List Completion) : Proc Unit :=
  reads.forM (respond file env)

/-- A read of a console in canonical mode. -/
def nextChunk (stream : List UInt8) : Option (Chunk × List UInt8) :=
  (canonicalRead stream).bind fun (bytes, rest) =>
    if valid : bytes ≠ [] ∧ bytes.length ≤ 1024 then some (⟨bytes, valid.1, valid.2⟩, rest)
    else none

/-- The reads that a stream of typed bytes completes. -/
def chunks : Nat → List UInt8 → List Chunk
  | 0, _ => []
  | fuel + 1, stream =>
      match nextChunk stream with
      | none => []
      | some (chunk, rest) => chunk :: chunks fuel rest

/-- Full buffers without a newline. -/
def complain : Nat → Proc Unit
  | 0 => pure ()
  | n + 1 => do
      writeStr (ascii "No end of line.\n")
      complain n

/-- The lines of a stream, of which the last is still being typed. -/
def interpret (env : Env) : List (List UInt8) → Proc Unit
  | [] => pure ()
  | [typed] => complain (typed.length / 1024)
  | line :: next :: lines => do
      complain (line.length / 1024)
      shell env (fragment line)
      interpret env (next :: lines)

section Reads
variable {file : List UInt8} {env : Env} {w : World}

theorem errexit_blind (file : List UInt8) (line msg : String) :
    Blind (fun _ => True) (errexit file line msg) :=
  .bind (writeStr_blind any_stop _) fun _ => .stop trivial

/-- The event loop and this module go the same way at each completion. -/
theorem processInput_follows (s : EventLoop.State) (cqe : UInt32) (res : Int32)
    (answers : List Reply) (asked : List Event) :
    processInput file env res ⟨s.buffer, answers, asked⟩ =
      match (EventLoop.processInput s cqe res).pc with
      | .command _ =>
          processCommand env 0 ⟨(EventLoop.processInput s cqe res).buffer, answers, asked⟩
      | .prompt _ => writeStr (ascii "No end of line.\n") ⟨s.buffer, answers, asked⟩
      | .exited =>
          if res = 0 then errexit file "152" "End of console input.\n" ⟨s.buffer, answers, asked⟩
          else errexit file "154" "Error reading file.\n" ⟨s.buffer, answers, asked⟩
      | _ => (.error .fault, ⟨s.buffer, answers, asked⟩) := by
  unfold processInput EventLoop.processInput
  split
  · rw [bind_ok _ (get_apply _)]
    cases found : s.buffer[(res.toInt - 1).toNat]? with
    | none => rw [bind_error _ (show loadByte .fault s.buffer _ _ = (.error .fault, _) by
        rw [loadByte, found]; rfl)]
    | some last =>
      rw [bind_ok _ (show loadByte .fault s.buffer _ _ = (.ok last, _) by rw [loadByte, found]; rfl)]
      by_cases newline : last = 10
      · simp only [newline, ne_eq, not_true_eq_false, if_false, if_true]
        rfl
      · simp only [newline, ne_eq, not_false_eq_true, if_true, if_false]
  · split <;> rfl

theorem Chunk.res_toInt (chunk : Chunk) :
    (Int32.ofNat chunk.bytes.length).toInt = chunk.bytes.length := by
  have bounded := chunk.bounded
  exact Int32.toInt_ofNat_of_lt (by omega)

theorem Chunk.res_positive (chunk : Chunk) : 0 < Int32.ofNat chunk.bytes.length := by
  rw [Int32.lt_iff_toInt_lt, chunk.res_toInt]
  exact Int.ofNat_lt.mpr (List.length_pos_iff.mpr chunk.nonempty)

theorem Chunk.last_index (chunk : Chunk) :
    ((Int32.ofNat chunk.bytes.length).toInt - 1).toNat = chunk.bytes.length - 1 := by
  rw [chunk.res_toInt]
  omega

/-- Whatever stands behind the bytes read. -/
theorem processInput_mirrors (file : List UInt8) (env : Env) (chunk : Chunk) (w : World)
    (buffer : w.state = chunk.bytes ++ tail) :
    Mirrors (processInput file env (Int32.ofNat chunk.bytes.length))
      (respondRead env chunk.bytes) w := by
  have positive := List.length_pos_iff.mpr chunk.nonempty
  have last : w.state[chunk.bytes.length - 1]? = chunk.bytes.getLast? := by
    rw [buffer, List.getElem?_append_left (by omega), ← List.getLast?_eq_getElem?]
  unfold processInput respondRead
  rw [if_pos chunk.res_positive, chunk.last_index]
  apply Mirrors.after (get_apply w)
  cases found : chunk.bytes.getLast? with
  | none => exact absurd (List.getLast?_eq_none_iff.mp found) chunk.nonempty
  | some c =>
    rw [found] at last
    have loaded : loadByte .fault w.state (chunk.bytes.length - 1) w = (.ok c, w) := by
      rw [loadByte, last]
      rfl
    apply Mirrors.after loaded
    by_cases newline : c = 10
    · rw [if_neg (not_not.mpr newline), if_pos (congrArg some newline)]
      apply Mirrors.after rfl
      apply processCommand_mirrors
      rw [buffer, Buffer.set_last chunk.nonempty]
      exact Buffer.stringAt_terminated _ _
    · rw [if_pos newline, if_neg fun same => newline (Option.some.inj same)]
      exact (writeStr_blind any_stop _).mirrors w

theorem respond_ended (file : List UInt8) (env : Env) (res : Int32) (empty : res ≤ 0) :
    processInput file env res = respond file env (.ended res empty) := by
  have none : ¬0 < res := by
    rw [Int32.lt_iff_toInt_lt]
    exact Int.not_lt.mpr (Int32.le_iff_toInt_le.mp empty)
  rw [processInput, if_neg none, respond]

theorem completion_mirrors (file : List UInt8) (env : Env) (completion : Completion) (w : World) :
    Mirrors (store completion.data >>= fun _ => processInput file env completion.res)
      (respond file env completion) w := by
  apply Mirrors.after rfl
  cases completion with
  | read chunk => exact processInput_mirrors file env chunk _ rfl
  | ended res empty =>
    change Mirrors (processInput file env res) _ _
    rw [respond_ended file env res empty, respond]
    apply Blind.mirrors (A := fun _ => True)
    split
    · exact errexit_blind _ _ _
    · exact errexit_blind _ _ _

/-- The reads are handled alike, one after the other. -/
theorem session_mirrors (file : List UInt8) (env : Env) (reads : List Completion) (w : World) :
    Mirrors (session file env reads) (transcript file env reads) w := by
  induction reads generalizing w with
  | nil => exact (Blind.pure (A := fun _ => True) ()).mirrors w
  | cons completion reads ih =>
    apply Mirrors.bind (completion_mirrors file env completion w)
    intro _ v _
    exact ih v

end Reads

section Lines
variable {stream : List UInt8}

/-- A read is the next line, or a full buffer of a longer one, or waits. -/
theorem nextChunk_cases (stream : List UInt8) :
    (∃ line rest chunk, 10 ∉ line ∧ fits line = true ∧ stream = line ++ 10 :: rest ∧
      chunk.bytes = line ++ [10] ∧ nextChunk stream = some (chunk, rest)) ∨
    (∃ rest chunk, chunk.bytes.length = 1024 ∧ 10 ∉ chunk.bytes ∧ stream = chunk.bytes ++ rest ∧
      nextChunk stream = some (chunk, rest)) ∨
    (10 ∉ stream ∧ stream.length < 1024 ∧ nextChunk stream = none) := by
  unfold nextChunk
  rcases canonicalRead_cases stream with
    ⟨line, rest, unbroken, short, split, read⟩ | ⟨big, rest, full, unbroken, split, read⟩ |
    ⟨unbroken, read⟩
  · have small := of_decide_eq_true short
    have valid : line ++ [10] ≠ [] ∧ (line ++ [10]).length ≤ 1024 := by
      refine ⟨by simp, ?_⟩
      rwa [List.length_append]
    refine .inl ⟨line, rest, ⟨line ++ [10], valid.1, valid.2⟩, unbroken, short, split, rfl, ?_⟩
    rw [read]
    exact dif_pos valid
  · have valid : big ≠ [] ∧ big.length ≤ 1024 :=
      ⟨List.ne_nil_of_length_pos (by omega), Nat.le_of_eq full⟩
    refine .inr (.inl ⟨rest, ⟨big, valid.1, valid.2⟩, full, unbroken, split, ?_⟩)
    rw [read]
    exact dif_pos valid
  · refine .inr (.inr ⟨unbroken, ?_, by rw [read]; rfl⟩)
    by_contra long
    rw [canonicalRead, List.idxOf?_eq_none_iff.mpr fun member =>
      unbroken (List.mem_of_mem_take member)] at read
    simp only [if_pos (Nat.le_of_not_lt long)] at read
    cases read

theorem commandLine_ended (line : List UInt8) (short : fits line = true) :
    Buffer.commandLine (line ++ [10]) = fragment line := by
  rw [Buffer.commandLine, List.dropLast_concat, fragment_of_fits short]

/-- A full buffer is a complaint and leaves the rest of its line. -/
theorem interpret_full (env : Env) (full : big.length = 1024) (lines : List (List UInt8)) :
    interpret env ((big ++ line) :: lines) =
      writeStr (ascii "No end of line.\n") >>= fun _ => interpret env (line :: lines) := by
  have count : (big ++ line).length / 1024 = line.length / 1024 + 1 := by
    rw [List.length_append, full]
    omega
  cases lines with
  | nil => rw [interpret, count, complain, interpret]
  | cons next lines =>
    rw [interpret, count, complain, interpret, fragment_append full, bind_assoc]

theorem interpret_line (env : Env) (short : fits line = true) (more : lines ≠ []) :
    interpret env (line :: lines) = shell env (fragment line) >>= fun _ => interpret env lines := by
  have small : line.length / 1024 = 0 := Nat.div_eq_of_lt (of_decide_eq_true short)
  cases lines with
  | nil => exact absurd rfl more
  | cons next lines => rw [interpret, small, complain, pure_bind]

theorem transcript_read (file : List UInt8) (env : Env) (chunk : Chunk) (reads : List Completion) :
    transcript file env (.read chunk :: reads) =
      respondRead env chunk.bytes >>= fun _ => transcript file env reads := rfl

theorem no_newline {line : List UInt8} (unbroken : 10 ∉ line) : ∀ x ∈ line, (x == 10) = false := by
  intro x member
  apply beq_false_of_ne
  rintro rfl
  exact unbroken member

/-- The reads of a stream, answered one by one, are its lines. -/
theorem transcript_chunks (file : List UInt8) (env : Env) (enough : stream.length ≤ fuel) :
    transcript file env ((chunks fuel stream).map .read) =
      interpret env (stream.splitOnP (· == 10)) := by
  induction fuel generalizing stream with
  | zero =>
    rw [List.eq_nil_of_length_eq_zero (Nat.le_zero.mp enough)]
    rfl
  | succ fuel ih =>
    rw [chunks]
    rcases nextChunk_cases stream with
      ⟨line, rest, chunk, unbroken, short, rfl, bytes, next⟩ |
      ⟨rest, chunk, full, unbroken, rfl, next⟩ | ⟨unbroken, small, next⟩
    · rw [List.length_append, List.length_cons] at enough
      have ended : (line ++ [10]).getLast? = some 10 := by simp
      simp only [next, List.map_cons]
      rw [transcript_read, ih (by omega), bytes, respondRead, if_pos ended,
        commandLine_ended line short,
        List.splitOnP_append_cons_of_forall_mem (no_newline unbroken) 10 rfl,
        interpret_line env short (List.splitOnP_ne_nil _ _)]
    · rw [List.length_append] at enough
      have open_ : chunk.bytes.getLast? ≠ some 10 :=
        fun last => unbroken (List.mem_of_getLast? last)
      simp only [next, List.map_cons]
      rw [transcript_read, ih (by omega), respondRead, if_neg open_, splitOnP_unbroken unbroken]
      cases split : rest.splitOnP (· == 10) with
      | nil => exact absurd split (List.splitOnP_ne_nil _ _)
      | cons line lines => exact (interpret_full env full lines).symm
    · rw [next, List.splitOnP_eq_singleton (no_newline unbroken), interpret,
        Nat.div_eq_of_lt small]
      rfl

/-- For every stream of typed bytes, whatever comes behind it and whatever the buffer
holds: a complaint for each full buffer of a line, then the command of what is left of
the line, with the outcome and the conversation of a shell that has no memory. -/
theorem session_interpreted (file : List UInt8) (env : Env) (stream : List UInt8)
    (more : List Completion) (w : World) :
    Mirrors (session file env ((chunks stream.length stream).map .read ++ more))
      (do
        interpret env (stream.splitOnP (· == 10))
        transcript file env more) w := by
  have mirrors := session_mirrors file env ((chunks stream.length stream).map .read ++ more) w
  rwa [transcript, forM_append, ← transcript, transcript_chunks file env (Nat.le_refl _)] at mirrors

end Lines
end MinLinux.Init.Session
