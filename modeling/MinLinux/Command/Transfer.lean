import MinLinux.Command.Output
import MinLinux.Command.Vector

/-! Copies of whole files under short counts. `cmd_cat` writes each piece it has read
once, and the child of `cmd_memrun` copies once: what a call leaves over is lost. -/
namespace MinLinux.Command
open Dialog Text

/-- A piece of the file that `read` returned, and how much of it `write` took. -/
structure Piece where
  data : List UInt8
  taken : Nat
  nonempty : data ≠ []
  fits : data.length ≤ 1024
  some_taken : 0 < taken
  most_taken : taken ≤ data.length

namespace Piece

def replies (piece : Piece) : List Reply :=
  [⟨piece.data.length, piece.data, []⟩, ⟨piece.taken, [], []⟩]

def events (fd : Int) (piece : Piece) : List Event :=
  [(.read fd 1024, ⟨piece.data.length, piece.data, []⟩),
    (.write STDOUT piece.data, ⟨piece.taken, [], []⟩)]

theorem output_events (fd : Int) (pieces : List Piece) :
    consoleOutput (pieces.flatMap (events fd)) = pieces.flatMap fun piece => piece.data.take piece.taken := by
  induction pieces with
  | nil => rfl
  | cons piece others ih =>
    rw [List.flatMap_cons, List.flatMap_cons, consoleOutput_append, ih]
    simp [consoleOutput, events]

theorem taken_length_le (pieces : List Piece) :
    (pieces.flatMap fun piece => piece.data.take piece.taken).length ≤
      (pieces.flatMap data).length := by
  induction pieces with
  | nil => exact Nat.le_refl 0
  | cons piece others ih =>
    simp only [List.flatMap_cons, List.length_append, List.length_take]
    omega

/-- Nothing is lost only if every write is complete. -/
theorem taken_eq (pieces : List Piece) :
    (pieces.flatMap fun piece => piece.data.take piece.taken) = pieces.flatMap data ↔
      ∀ piece ∈ pieces, piece.taken = piece.data.length := by
  constructor
  · intro same
    induction pieces with
    | nil => exact nofun
    | cons piece others ih =>
      have short := taken_length_le others
      have lengths := congrArg List.length same
      have most := piece.most_taken
      rw [List.flatMap_cons, List.flatMap_cons, List.length_append, List.length_append,
        List.length_take] at lengths
      have complete : piece.taken = piece.data.length := by omega
      rw [List.flatMap_cons, List.flatMap_cons, complete, List.take_length] at same
      exact List.forall_mem_cons.mpr ⟨complete, ih (List.append_cancel_left same)⟩
  · intro complete
    rw [List.flatMap_def, List.flatMap_def]
    apply congrArg
    apply List.map_congr_left
    intro piece member
    rw [complete piece member, List.take_length]

end Piece

section Cat
variable {w : World}

theorem catLoop_ok {pieces : List Piece} (ended : eof.res = 0) (enough : pieces.length < fuel)
    (answers : w.answers = pieces.flatMap Piece.replies ++ eof :: later) (buffer : List UInt8) :
    catLoop fd fuel buffer w =
      (.ok 0, { w with
        answers := later
        asked := w.asked ++ pieces.flatMap (Piece.events fd) ++ [(.read fd 1024, eof)] }) := by
  induction pieces generalizing fuel w buffer with
  | nil =>
    obtain ⟨fuel, rfl⟩ := Nat.exists_eq_add_one_of_ne_zero (Nat.ne_of_gt enough)
    rw [catLoop, bind_ok _ (syscall_ok answers _)]
    simp [ended]
  | cons piece others ih =>
    obtain ⟨fuel, rfl⟩ := Nat.exists_eq_add_one_of_ne_zero (Nat.ne_zero_of_lt enough)
    have more : (0 : Int) < piece.data.length :=
      Int.natCast_pos.mpr (List.length_pos_of_ne_nil piece.nonempty)
    have filled : (received 1024 buffer piece.data).take piece.data.length = piece.data := by
      rw [received, List.take_of_length_le piece.fits, List.take_left]
    rw [List.flatMap_cons, List.append_assoc] at answers
    rw [catLoop, bind_ok _ (syscall_ok answers _)]
    simp only [if_pos more, Int.toNat_natCast, filled]
    rw [bind_ok _ (syscall_ok rfl _), if_neg (Int.not_lt.mpr (Int.natCast_nonneg _)),
      ih (Nat.lt_of_succ_lt_succ enough) rfl]
    simp [Piece.events]

theorem pieces_length (pieces : List Piece) :
    pieces.length ≤ (pieces.flatMap Piece.replies).length := by
  induction pieces with
  | nil => exact Nat.le_refl 0
  | cons piece others ih =>
    rw [List.flatMap_cons, List.length_append, Piece.replies, List.length_cons]
    simp only [List.length_cons]
    omega

theorem catFile_ok {pieces : List Piece} (points : Points w.state path name)
    (opened : 0 ≤ fd.res) (ended : eof.res = 0)
    (answers : w.answers = fd :: (pieces.flatMap Piece.replies ++ eof :: later)) :
    ∃ new, catFile path w = (.ok (), { w with answers := later, asked := w.asked ++ new }) ∧
      consoleOutput new = pieces.flatMap fun piece => piece.data.take piece.taken := by
  have enough : pieces.length < (pieces.flatMap Piece.replies ++ eof :: later).length + 1 := by
    have most := pieces_length pieces
    rw [List.length_append]
    omega
  refine ⟨(.openat2 name (O_RDONLY ||| O_NOATIME), fd) ::
    pieces.flatMap (Piece.events fd.res) ++ [(.read fd.res 1024, eof)], ?_, ?_⟩
  · rw [catFile, bind_ok _ (loadString_spec points), bind_ok _ (syscall_ok answers _),
      if_neg (by omega), bind_ok _ (budget_apply _), bind_ok _ (catLoop_ok ended enough rfl _),
      if_neg (Int.lt_irrefl 0)]
    simp
  · rw [consoleOutput_append]
    exact (List.append_nil _).trans (Piece.output_events _ _)

end Cat

section Memrun
variable {w : World} {env : Env}

/-- Any call but `execveat`. -/
def NoExec (e : Event) : Prop :=
  ∀ dirfd path argv envp flags, e.1 ≠ .execveat dirfd path argv envp flags

theorem noExec_writes : Writes NoExec := by
  intro bytes r dirfd path argv envp flags same
  cases same

/-- An `execveat` has been called. -/
def Executes (m : Proc Unit) (w : World) : Prop := ∃ e ∈ (m w).2.asked, ¬NoExec e

theorem syscheck_returns (ran : syscheck env line call w = (.ok reply, w')) :
    0 ≤ reply.res ∧ ∃ later, w.answers = reply :: later ∧
      w' = { w with answers := later, asked := w.asked ++ [(call, reply)] } := by
  obtain ⟨r, v, asked, later⟩ := bind_returns.mp ran
  obtain ⟨rest, answers, rfl⟩ := ask_returns.mp asked
  split at later
  · obtain ⟨_, _, -, later⟩ := bind_returns.mp later
    obtain ⟨_, _, -, later⟩ := bind_returns.mp later
    obtain ⟨_, _, -, later⟩ := bind_returns.mp later
    cases later
  · rename_i succeeds
    cases later
    exact ⟨Int.not_lt.mp succeeds, rest, answers, rfl⟩

theorem executes_syscall {f : Reply → Proc Unit} (clean : ∀ e ∈ w.asked, NoExec e)
    (reached : Executes (syscall call >>= f) w) (other : ∀ r, NoExec (call, r)) :
    ∃ r later, w.answers = r :: later ∧ (∀ e ∈ w.asked ++ [(call, r)], NoExec e) ∧
      Executes (f r) ⟨w.state, later, w.asked ++ [(call, r)]⟩ := by
  obtain ⟨r, w', ran, clean', reached'⟩ := Emits.passes (.ask _ _ other) clean reached
  obtain ⟨later, answers, rfl⟩ := ask_returns.mp ran
  exact ⟨r, later, answers, clean', reached'⟩

theorem executes_syscheck {f : Reply → Proc Unit} (clean : ∀ e ∈ w.asked, NoExec e)
    (reached : Executes (syscheck env line call >>= f) w) (other : ∀ r, NoExec (call, r)) :
    ∃ r later, w.answers = r :: later ∧ 0 ≤ r.res ∧ (∀ e ∈ w.asked ++ [(call, r)], NoExec e) ∧
      Executes (f r) ⟨w.state, later, w.asked ++ [(call, r)]⟩ := by
  obtain ⟨r, w', ran, clean', reached'⟩ :=
    Emits.passes (syscheck_emits noExec_writes _ _ _ other) clean reached
  obtain ⟨succeeds, later, answers, rfl⟩ := syscheck_returns ran
  exact ⟨r, later, answers, succeeds, clean', reached'⟩

theorem loadString_returns (ran : loadString p w = (.ok s, w')) : w' = w := by
  cases p with
  | literal text =>
    cases ran
    rfl
  | line p =>
    obtain ⟨mem, v, got, ran⟩ := bind_returns.mp ran
    cases got
    cases found : cstring (List.drop p w.state) with
    | none =>
      simp only [stringOf, found] at ran
      cases ran
    | some s =>
      simp only [stringOf, found] at ran
      cases ran
      rfl

theorem loadArgs_returns (ran : loadArgs args w = (.ok argv, w')) : w' = w := by
  induction args generalizing argv w with
  | nil => cases ran
  | cons arg rest ih =>
    cases arg with
    | uninit => cases ran
    | null =>
      cases ran
      rfl
    | str p =>
      obtain ⟨first, v, loaded, ran⟩ := bind_returns.mp ran
      obtain ⟨others, v', loaded', ran⟩ := bind_returns.mp ran
      cases ran
      rw [ih loaded', loadString_returns loaded]

/-- A child that has called `execveat` has made each call in front of it. -/
theorem execMemrun_executes (clean : ∀ e ∈ w.asked, NoExec e)
    (reached : Executes (execMemrun env path args) w) :
    ∃ (l : Launch) (exec : Reply) (later : List Reply),
      w.answers = l.replies ++ exec :: later ∧ l.Succeeds := by
  obtain ⟨state, answers, asked⟩ := w
  simp only [execMemrun, openConsole, closeAllFiles, bind_assoc, Dialog.pure_bind] at reached
  obtain ⟨closed, _, rfl, clean, reached⟩ := executes_syscall clean reached (by simp [NoExec])
  obtain ⟨input, _, rfl, inputOk, clean, reached⟩ := executes_syscheck clean reached (by simp [NoExec])
  obtain ⟨output, _, rfl, outputOk, clean, reached⟩ :=
    executes_syscheck clean reached (by simp [NoExec])
  obtain ⟨dup, _, rfl, dupOk, clean, reached⟩ := executes_syscheck clean reached (by simp [NoExec])
  obtain ⟨memfd, _, rfl, clean, reached⟩ := executes_syscall clean reached (by simp [NoExec])
  obtain ⟨name, v, loaded, clean, reached⟩ := Emits.passes (loadString_emits _) clean reached
  cases loadString_returns loaded
  obtain ⟨infd, _, rfl, infdOk, clean, reached⟩ := executes_syscheck clean reached (by simp [NoExec])
  obtain ⟨stats, _, rfl, statsOk, clean, reached⟩ :=
    executes_syscheck clean reached (by simp [NoExec])
  obtain ⟨copied, _, rfl, copiedOk, clean, reached⟩ :=
    executes_syscheck clean reached (by simp [NoExec])
  obtain ⟨mask, answers, rfl, maskOk, clean, reached⟩ :=
    executes_syscheck clean reached (by simp [NoExec])
  rw [execveat, bind_assoc] at reached
  obtain ⟨argv, v, loaded', clean, reached⟩ := Emits.passes (loadArgs_emits _) clean reached
  cases loadArgs_returns loaded'
  cases answers with
  | nil =>
    obtain ⟨e, member, exec⟩ := reached
    exact absurd (clean e member) exec
  | cons exec later =>
    exact ⟨⟨closed, input, output, dup, memfd, infd, stats, copied, mask⟩, exec, later, rfl,
      ⟨inputOk, outputOk, dupOk, infdOk, statsOk, copiedOk, maskOk⟩⟩

theorem not_executes {m : Proc Unit} (emits : Emits (fun _ => True) NoExec m)
    (clean : ∀ e ∈ w.asked, NoExec e) : ¬Executes m w := by
  rintro ⟨e, member, exec⟩
  obtain ⟨-, new, asked, all⟩ := emits w trivial
  rw [asked] at member
  rcases List.mem_append.mp member with earlier | later
  · exact exec (clean e earlier)
  · exact exec (all e later)

theorem memrunFile_executes (at_path : StringAt w.state path name)
    (at_next : StringAt w.state next rest) (apart : path + name.length < next ∨ rest = [])
    (clean : ∀ e ∈ w.asked, NoExec e) (reached : Executes (memrunFile env path next) w) :
    ∃ clone exec later, ∃ l : Launch, w.answers = clone :: (l.replies ++ exec :: later) ∧
      clone.res = 0 ∧ l.Succeeds ∧ 1 + (fields rest).length < MAX_ARGS := by
  obtain ⟨state, answers, asked⟩ := w
  obtain ⟨clone, left, rfl, clean', reached⟩ := executes_syscall clean reached (fun _ => nofun)
  split at reached
  · refine absurd reached (not_executes (memrunParent_emits noExec_writes ?_ _ _) clean')
    intro pid r dirfd path argv envp flags same
    cases same
  · split at reached
    · rename_i child
      by_cases few : 1 + (fields rest).length < MAX_ARGS
      · obtain ⟨mem, args, same, -, -⟩ := memrunChild_eq
          (w := ⟨state, left, asked ++ [(.clone3 0 SIGCHLD, clone)]⟩) env at_path at_next apart few
        rw [Executes, same] at reached
        obtain ⟨l, exec, later, rfl, succeeds⟩ := execMemrun_executes clean' reached
        exact ⟨clone, exec, later, l, rfl, child, succeeds, few⟩
      · obtain ⟨mem, overflow⟩ := memrunChild_overflow
          (w := ⟨state, left, asked ++ [(.clone3 0 SIGCHLD, clone)]⟩) env path at_next
          (Nat.le_of_not_lt few)
        rw [Executes, overflow] at reached
        obtain ⟨e, member, exec⟩ := reached
        exact absurd (clean' e member) exec
    · exact absurd reached (not_executes (writeErr_emits noExec_writes _ _) clean')

/-- What `copy_file_range` has put into the memfd: the offsets of `cmd_memrun` start at 0,
and each call moves them on. -/
def transferred (infd memfd : Int) (file : List UInt8) (asked : List Event) : List UInt8 :=
  file.take (asked.map fun e =>
    match e.1 with
    | .copyFileRange fdIn fdOut _ => if fdIn = infd ∧ fdOut = memfd then e.2.res.toNat else 0
    | _ => 0).sum

/-- The kernel knows the size of the file, and copies at least one byte unless there is
none, and at most what it has been asked for. -/
structure Launch.Legal (l : Launch) (file : List UInt8) : Prop where
  size : (l.stats.fields.getD 0 0).toNat = file.length
  some_copied : file ≠ [] → 0 < l.copied.res
  most_copied : l.copied.res ≤ (l.stats.fields.getD 0 0).toNat

theorem transferred_launch (l : Launch) (succeeds : l.Succeeds) (legal : l.Legal file)
    (path : List UInt8) :
    transferred l.infd.res l.memfd.res file ((l.calls path).zip l.replies) = file ↔
      l.copied.res = file.length := by
  have most := legal.most_copied
  have all := succeeds.copied
  have total : transferred l.infd.res l.memfd.res file ((l.calls path).zip l.replies) =
      file.take l.copied.res.toNat := by
    simp [transferred, Launch.calls, Launch.replies]
  rw [legal.size] at most
  rw [total]
  constructor
  · intro same
    have length := congrArg List.length same
    rw [List.length_take] at length
    omega
  · intro whole
    exact List.take_of_length_le (by omega)

end Memrun

/-- Neither command looks at how much a call has transferred. What `cat` writes is the
file only if every write takes the whole piece, and what the child of `memrun` executes
is the file only if its one copy takes all of it. -/
theorem transfers_complete_iff (env : Env) (mem : List UInt8) (answers : List Reply) (next : Nat)
    (rest : List UInt8) (terminated : StringAt mem next rest) :
    (∀ path others, tokens rest = path :: others → ∀ fd (pieces : List Piece) eof later,
      answers = fd :: (pieces.flatMap Piece.replies ++ eof :: later) → 0 ≤ fd.res → eof.res = 0 →
      ∃ mem' new, cmdCat next ⟨mem, answers, []⟩ = (.ok (), ⟨mem', later, new⟩) ∧
        (consoleOutput new = pieces.flatMap Piece.data ↔
          ∀ piece ∈ pieces, piece.taken = piece.data.length)) ∧
    (Executes (cmdMemrun env next) ⟨mem, answers, []⟩ → ∃ path argv clone exec later after,
      ∃ l : Launch, answers = clone :: (l.replies ++ exec :: later) ∧
        (cmdMemrun env next ⟨mem, answers, []⟩).2.asked =
          (.clone3 0 SIGCHLD, clone) :: (l.calls path).zip l.replies ++
            (.execveat l.memfd.res [] argv [] AT_EMPTY_PATH, exec) :: after ∧
        ∀ file, l.Legal file →
          (transferred l.infd.res l.memfd.res file ((l.calls path).zip l.replies) = file ↔
            l.copied.res = file.length)) := by
  constructor
  · rintro path others split fd pieces eof later rfl opened ended
    obtain ⟨p, mem', at_path, run⟩ := cmdCat_path (w := ⟨mem, _, []⟩) terminated split
    obtain ⟨new, copied, shown⟩ := catFile_ok
      (w := ⟨mem', fd :: (pieces.flatMap Piece.replies ++ eof :: later), []⟩)
      (show Points _ (.line p) _ from at_path) opened ended rfl
    refine ⟨mem', new, run.trans copied, ?_⟩
    rw [shown]
    exact Piece.taken_eq pieces
  · intro reached
    cases split : tokens rest with
    | nil =>
      apply absurd reached
      rw [Executes, cmdMemrun, bind_ok _ (findArg_none terminated split)]
      exact not_executes (writeStr_emits noExec_writes _) (by simp)
    | cons path others =>
      obtain ⟨p, behind, mem', same, at_path, at_rest, apart, -⟩ :=
        cmdMemrun_file (w := ⟨mem, answers, []⟩) env terminated split
      rw [Executes, same] at reached
      obtain ⟨clone, exec, later, l, rfl, child, succeeds, few⟩ :=
        memrunFile_executes (w := ⟨mem', _, []⟩) at_path at_rest apart (by simp) reached
      obtain ⟨after, asked⟩ := memrunFile_reaches
        (w := ⟨mem', clone :: (l.replies ++ exec :: later), []⟩) env at_path at_rest apart few child
        l succeeds rfl
      rw [same, asked]
      refine ⟨path, _, clone, exec, later, after, l, rfl, rfl, ?_⟩
      intro file legal
      exact transferred_launch l succeeds legal path

/-- Two pieces that are written whole, and a program that is copied whole. -/
theorem transfers_complete_two :
    (∃ mem new, cmdCat 0 ⟨ascii "x" ++ [0], [⟨3, [], []⟩, ⟨2, ascii "hi", []⟩, ⟨2, [], []⟩,
        ⟨1, ascii "!", []⟩, ⟨1, [], []⟩, ⟨0, [], []⟩], []⟩ = (.ok (), ⟨mem, [], new⟩) ∧
      consoleOutput new = ascii "hi!") ∧
    ∃ (l : Launch) (path : List UInt8), l.stats = ⟨0, [], [2]⟩ ∧ l.copied = ⟨2, [], []⟩ ∧
      transferred l.infd.res l.memfd.res (ascii "hi") ((l.calls path).zip l.replies) = ascii "hi" := by
  have terminated : StringAt (ascii "x" ++ [0]) 0 (ascii "x") := rfl
  constructor
  · let pieces : List Piece :=
      [⟨ascii "hi", 2, by decide, by decide, by decide, by decide⟩,
        ⟨ascii "!", 1, by decide, by decide, by decide, by decide⟩]
    obtain ⟨mem, new, ran, whole⟩ := (transfers_complete_iff ⟨[], [], []⟩ _ _ 0 _ terminated).1
      (ascii "x") [] (by decide) ⟨3, [], []⟩ pieces ⟨0, [], []⟩ [] rfl (by decide) rfl
    refine ⟨mem, new, ran, whole.mpr ?_⟩
    simp [pieces, ascii]
  · let zero : Reply := ⟨0, [], []⟩
    let l : Launch :=
      ⟨zero, zero, zero, zero, ⟨2, [], []⟩, ⟨3, [], []⟩, ⟨0, [], [2]⟩, ⟨2, [], []⟩, zero⟩
    have executes : Executes (cmdMemrun ⟨[], [], []⟩ 0)
        ⟨ascii "x" ++ [0], zero :: (l.replies ++ [⟨-2, [], []⟩]), []⟩ :=
      ⟨(.execveat 2 [] [ascii "x", []] [] AT_EMPTY_PATH, ⟨-2, [], []⟩), by decide +kernel,
        fun other => other _ _ _ _ _ rfl⟩
    obtain ⟨path, argv, clone, exec, later, after, l', same, asked, whole⟩ :=
      (transfers_complete_iff ⟨[], [], []⟩ _ _ 0 _ terminated).2 executes
    have answers := congrArg (fun replies => replies.take 9) (List.cons.inj same).2
    obtain ⟨stats, copied⟩ : l'.stats = ⟨0, [], [2]⟩ ∧ l'.copied = ⟨2, [], []⟩ := by
      simp only [l, Launch.replies, List.take, List.cons_append, List.cons.injEq] at answers
      exact ⟨answers.2.2.2.2.2.2.1.symm, answers.2.2.2.2.2.2.2.1.symm⟩
    have legal : l'.Legal (ascii "hi") := by
      constructor
      · rw [stats]
        decide
      · rw [copied]
        decide
      · rw [stats, copied]
        decide
    refine ⟨l', path, stats, copied, (whole _ legal).mpr ?_⟩
    rw [copied]
    decide

/-- A write of two bytes and a copy of two bytes that the kernel cuts short. -/
theorem transfers_truncated :
    consoleOutput (cmdCat 0 ⟨ascii "x" ++ [0], [⟨3, [], []⟩, ⟨2, ascii "hi", []⟩, ⟨1, [], []⟩,
      ⟨0, [], []⟩], []⟩).2.asked = ascii "h" ∧
    ∃ asked, (cmdMemrun ⟨[], [], []⟩ 0 ⟨ascii "x" ++ [0], [⟨0, [], []⟩, ⟨0, [], []⟩, ⟨0, [], []⟩,
        ⟨1, [], []⟩, ⟨2, [], []⟩, ⟨2, [], []⟩, ⟨3, [], []⟩, ⟨0, [], [2]⟩, ⟨1, [], []⟩, ⟨0, [], []⟩,
        ⟨-2, [], []⟩], []⟩).2.asked = asked ∧
      vectors asked = [[ascii "x", []]] ∧ transferred 3 2 (ascii "hi") asked = ascii "h" := by
  refine ⟨by decide +kernel, _, rfl, by decide +kernel, by decide +kernel⟩

end MinLinux.Command
