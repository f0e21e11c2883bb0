import MinLinux.Command.Confinement
import MinLinux.Command.Inheritance
import MinLinux.Init.Boot
import MinLinux.Init.Refinement

/-! What the requests of the event loop are about. The kernel may start init with any
descriptors; `start` opens the console on the lowest that are free, and no command moves
what it has opened. -/
namespace MinLinux.Init.Boot
open Uring Dialog Files Command Inheritance

/-- What init has open besides files. -/
inductive Source (F : Type) where
  | before (file : F)
  | ring
  | signals (mask : UInt64)
  | socket (domain type protocol : Nat)
deriving DecidableEq

/-- The members of an answer that commands have as well. -/
def Reply.plain (r : Reply) : Command.Reply := ⟨r.res, [], []⟩

section Kernel
variable {limit : Nat} {F : Type}

def isRing : Object (Source F) → Bool
  | .inherited .ring => true
  | _ => false

def ringEntry : Entry (Object (Source F)) := ⟨.inherited .ring, true⟩

def signalsEntry (mask : UInt64) : Entry (Object (Source F)) := ⟨.inherited (.signals mask), false⟩

/-- What the kernel does for init with its answer to a call; `none` is an answer it does
not give. Only a ring can be mapped, and `signalfd4` makes a new descriptor. A set of
signals stands for those of it that can be blocked. -/
def serve (p : Process limit (Source F)) : Event → Option (Process limit (Source F))
  | (.call call, r) => Inheritance.serve p (call, r.plain)
  | (.ioUringSetup _, r) => p.afterFiles r.plain (p.files.alloc r.res.toNat ringEntry)
  | (.mmap _ fd _, r) =>
      if r.res < 0 then some p else if (p.file fd).any isRing then some p else none
  | (.sigprocmask set, r) => if r.res < 0 then some p else some { p with blocked := set }
  | (.signalfd4 fd mask _, r) =>
      p.afterFiles r.plain (if fd = -1 then p.files.alloc r.res.toNat (signalsEntry mask) else none)
  | (.socket domain type protocol, r) =>
      p.afterFiles r.plain
        (p.files.alloc r.res.toNat ⟨.inherited (.socket domain type protocol), false⟩)
  | _ => some p

def consoleIn : Entry (Object (Source F)) := ⟨.opened (ascii "/dev/console") O_RDONLY, false⟩

def consoleOut : Entry (Object (Source F)) :=
  ⟨.opened (ascii "/dev/console") (O_APPEND ||| O_WRONLY), false⟩

/-- Standard input is what it was before, or else the console. Standard output is what it
was, or else the console, which can only be written if it was not opened as standard input
of a process that already had one. Standard error is the console in any case. -/
structure Console (before after : Table limit (Object (Source F))) : Prop where
  input : after.entry 0 = some ((before.entry 0).getD consoleIn)
  output : after.entry 1 =
    some ((before.entry 1).getD (if (before.entry 0).isNone then consoleOut else consoleIn))
  error : after.entry 2 = some consoleOut
  kept : ∀ fd e, fd ≠ 2 → before.entry fd = some e → after.entry fd = some e

theorem alloc_keeps {t t' : Table limit F} (opened : t.alloc fd e = some t')
    (taken : t.entry n = some e') : t'.entry n = some e' := by
  obtain ⟨free, -, inside, rfl⟩ := Table.alloc_eq_some.mp opened
  have other : n ≠ fd := by
    rintro rfl
    cases free.symm.trans taken
  exact (Function.update_of_ne other _ _).trans taken

theorem alloc_takes {t t' : Table limit F} (opened : t.alloc fd e = some t') :
    t'.entry fd = some e := by
  rw [Table.alloc_entry opened, Function.update_self]

theorem alloc_close {t t' : Table limit F} (opened : t.alloc fd e = some t') : t'.close fd = t := by
  obtain ⟨free, -, inside, rfl⟩ := Table.alloc_eq_some.mp opened
  apply Table.ext
  funext n
  rw [Table.close_entry, Table.set_entry, Function.update_apply]
  split
  · rename_i same
    rw [same, free]
  · rfl

/-- Both descriptors of the console are the lowest that are free. -/
theorem console_opened {t t₁ t₂ t₃ : Table limit (Object (Source F))}
    (input : t.alloc a consoleIn = some t₁) (output : t₁.alloc b consoleOut = some t₂)
    (copied : t₂.dup b 2 = some t₃) : Console t t₃ := by
  obtain ⟨free_a, below_a, -, -⟩ := Table.alloc_eq_some.mp input
  obtain ⟨free_b, below_b, -, -⟩ := Table.alloc_eq_some.mp output
  have first := Table.alloc_entry input
  have second := Table.alloc_entry output
  obtain ⟨other, e, inside, found, rfl⟩ := Table.dup_eq_some.mp copied
  rw [second, Function.update_self] at found
  cases found
  have entries : ∀ n, (t₂.set 2 inside consoleOut).entry n = if n = 2 ∨ n = b then some consoleOut
      else if n = a then some consoleIn else t.entry n := by
    intro n
    simp only [Table.set_entry, second, first, Function.update_apply, ite_or]
  have apart : b ≠ a := by
    rintro rfl
    rw [first, Function.update_self] at free_b
    cases free_b
  have free : t.entry b = none := by rwa [first, Function.update_of_ne apart] at free_b
  -- A descriptor that is free is one of the two unless both are lower.
  have lowest : ∀ n, t.entry n = none → n < b → n = a := by
    intro n none below
    by_contra distinct
    refine below_b n below ?_
    rw [first, Function.update_of_ne distinct, none]
  have taken : ∀ n e, t.entry n = some e → n ≠ a ∧ n ≠ b := by
    intro n e taken
    constructor
    · rintro rfl
      cases free_a.symm.trans taken
    · rintro rfl
      cases free.symm.trans taken
  have above : ∀ n, t.entry n = none → a ≤ n := by
    intro n none
    by_contra below
    exact below_a n (by omega) none
  change Console t (t₂.set 2 inside consoleOut)
  constructor
  · rw [entries]
    cases zero : t.entry 0 with
    | some e =>
      obtain ⟨not_a, not_b⟩ := taken 0 e zero
      rw [if_neg (by omega), if_neg not_a]
      rfl
    | none =>
      have := above 0 zero
      rw [if_neg (by omega), if_pos (by omega)]
      rfl
  · rw [entries]
    cases one : t.entry 1 with
    | some e =>
      obtain ⟨not_a, not_b⟩ := taken 1 e one
      rw [if_neg (by omega), if_neg not_a]
      rfl
    | none =>
      have := above 1 one
      have behind := lowest 1 one
      cases zero : t.entry 0 with
      | some e =>
        obtain ⟨not_a, not_b⟩ := taken 0 e zero
        rw [if_neg (by omega), if_pos (by omega)]
        rfl
      | none =>
        have := above 0 zero
        rw [if_pos (by omega)]
        rfl
  · exact (entries 2).trans (if_pos (.inl rfl))
  · intro fd e other occupied
    obtain ⟨not_a, not_b⟩ := taken fd e occupied
    rw [entries, if_neg (by omega), if_neg not_a]
    exact occupied

/-- The console is open, and of the rest of init only the signals it blocks have changed. -/
def Opened (before : Process limit (Source F)) (blocked : UInt64)
    (P : Table limit (Object (Source F)) → Prop) (p : Process limit (Source F)) : Prop :=
  ∃ t, Console before.files t ∧ P t ∧ p = { before with files := t, blocked := blocked }

theorem Console.alloc {t u u' : Table limit (Object (Source F))} (console : Console t u)
    (opened : u.alloc fd e = some u') : Console t u' where
  input := alloc_keeps opened console.input
  output := alloc_keeps opened console.output
  error := alloc_keeps opened console.error
  kept fd e other taken := alloc_keeps opened (console.kept fd e other taken)

def anyway (_ : Stop) (_ : Process limit (Source F)) : Prop := True

theorem syscheck_triple {pre : Process limit (Source F) → Prop}
    {post : Reply → Process limit (Source F) → Prop} (file stale : List UInt8) (line : String)
    (succeeds : ∀ p r p', pre p → 0 ≤ r.res → serve p (call, r) = some p' → post r p') :
    Triple serve pre (syscheck file stale line call) post anyway :=
  Macro.syscheck_triple (N := fun _ => True) file stale line (fun _ _ _ _ _ _ => trivial)
    (fun _ _ _ => trivial) (fun _ _ => trivial) succeeds fun _ _ _ _ _ _ => trivial

/-- A descriptor more. -/
theorem allocates_triple {before : Process limit (Source F)}
    {P : Table limit (Object (Source F)) → Prop} (file stale : List UInt8) (line : String)
    (e : Entry (Object (Source F))) (served : ∀ (p : Process limit (Source F)) r,
      serve p (call, r) = p.afterFiles r.plain (p.files.alloc r.res.toNat e))
    (lasts : ∀ {t t' fd}, P t → t.alloc fd e = some t' → P t') :
    Triple serve (Opened before blocked P) (syscheck file stale line call)
      (fun r => Opened before blocked fun t => P t ∧ 0 ≤ r.res ∧ t.entry r.res.toNat = some e)
      anyway := by
  apply syscheck_triple
  rintro p r p' ⟨t, console, holds, rfl⟩ succeeds same
  rw [served] at same
  obtain ⟨u, opened, rfl⟩ := afterFiles_done succeeds same
  exact ⟨u, console.alloc opened, ⟨lasts holds opened, succeeds, alloc_takes opened⟩, rfl⟩

section Stages
variable {before : Process limit (Source F)} (file stale : List UInt8)

/-- A call the kernel keeps nothing of. -/
theorem passes_triple {pre : Process limit (Source F) → Prop} (line : String)
    (served : ∀ (p : Process limit (Source F)) r, serve p (call, r) = some p) :
    Triple serve pre (syscheck file stale line call) (fun _ => pre) anyway := by
  apply syscheck_triple
  intro p r p' holds _ same
  cases (served p r).symm.trans same
  exact holds

theorem openConsole_triple : Triple serve (· = before) (openConsole file stale)
    (fun _ => Opened before before.blocked fun _ => True) anyway := by
  refine .bind (M := fun _ => (· = before)) (.ask ?_ fun _ _ => trivial) fun _ => ?_
  · rintro p r p' rfl served
    cases served
    rfl
  refine .bind (passes_triple file stale _ fun _ _ => rfl) fun _ => ?_
  refine .bind (passes_triple file stale _ fun _ _ => rfl) fun _ => ?_
  refine .bind (passes_triple file stale _ fun _ _ => rfl) fun _ => ?_
  refine .bind (passes_triple file stale _ fun _ _ => rfl) fun _ => ?_
  refine .bind (passes_triple file stale _ fun _ _ => rfl) fun _ => ?_
  refine .bind (passes_triple file stale _ fun _ _ => rfl) fun _ => ?_
  refine .bind (M := fun r p => ∃ t, before.files.alloc r.res.toNat consoleIn = some t ∧
    p = { before with files := t }) (syscheck_triple file stale _ ?_) fun input => ?_
  · rintro p r p' rfl succeeds served
    obtain ⟨t, opened, rfl⟩ := afterFiles_done succeeds served
    exact ⟨t, opened, rfl⟩
  refine .bind (M := fun r p => ∃ t t', before.files.alloc input.res.toNat consoleIn = some t ∧
    t.alloc r.res.toNat consoleOut = some t' ∧ p = { before with files := t' })
    (syscheck_triple file stale _ ?_) fun output => ?_
  · rintro p r p' ⟨t, first, rfl⟩ succeeds served
    obtain ⟨t', opened, rfl⟩ := afterFiles_done succeeds served
    exact ⟨t, t', first, opened, rfl⟩
  refine .bind (M := fun _ => Opened before before.blocked fun _ => True)
    (syscheck_triple file stale _ ?_) fun _ => .pure fun _ => id
  rintro p r p' ⟨t, t', first, second, rfl⟩ succeeds served
  obtain ⟨u, copied, rfl⟩ := afterFiles_done succeeds served
  rw [if_neg (by decide)] at copied
  obtain ⟨-, -, copied⟩ := Option.bind_eq_some_iff.mp copied
  exact ⟨u, console_opened first second copied, trivial, rfl⟩

/-- The descriptor for the messages of the kernel is closed again. -/
theorem quietKernel_triple : Triple serve (Opened before blocked fun _ => True) (quietKernel file stale)
    (fun _ => Opened before blocked fun _ => True) anyway := by
  refine .bind (M := fun r p => ∃ q e t, Opened before blocked (fun _ => True) q ∧
    q.files.alloc r.res.toNat e = some t ∧ p = { q with files := t })
    (syscheck_triple file stale _ ?_) fun printkfd => ?_
  · intro p r p' holds succeeds served
    obtain ⟨t, opened, rfl⟩ := afterFiles_done succeeds served
    exact ⟨p, _, t, holds, opened, rfl⟩
  refine .bind (passes_triple file stale _ fun _ _ => rfl) fun _ => ?_
  refine .bind (M := fun _ => Opened before blocked fun _ => True)
    (syscheck_triple file stale _ ?_) fun _ => .pure fun _ => id
  rintro p r p' ⟨q, e, t, holds, opened, rfl⟩ succeeds served
  obtain ⟨u, closed, rfl⟩ := afterFiles_done succeeds served
  obtain ⟨-, -, same⟩ := Option.map_eq_some_iff.mp closed
  rw [alloc_close opened] at same
  subst same
  exact holds

theorem uringInit_triple (size : UInt32) :
    Triple serve (Opened before blocked fun _ => True) (uringInit file stale size)
      (fun q => Opened before blocked fun t => t.entry q.ringfd.toNat = some ringEntry) anyway := by
  refine .bind (M := fun r p => r.res < 0 ∨
    Opened before blocked (fun t => t.entry r.res.toNat = some ringEntry) p)
    (.ask ?_ fun _ _ => trivial) fun ring => ?_
  · rintro p r p' ⟨t, console, -, rfl⟩ served
    by_cases failed : r.res < 0
    · exact .inl failed
    · obtain ⟨u, opened, rfl⟩ := afterFiles_done (Int.not_lt.mp failed) served
      exact .inr ⟨u, console.alloc opened, alloc_takes opened, rfl⟩
  split
  · exact .stop fun _ _ => trivial
  · rename_i made
    split
    · exact .stop fun _ _ => trivial
    · have mapped : ∀ line length offset, Triple serve
          (Opened before blocked fun t => t.entry ring.res.toNat = some ringEntry)
          (syscheck file stale line (.mmap length ring.res offset))
          (fun _ => Opened before blocked fun t => t.entry ring.res.toNat = some ringEntry) anyway := by
        intro line length offset
        apply syscheck_triple
        intro p r p' holds succeeds served
        rw [serve, if_neg (by omega), Option.ite_none_right_eq_some] at served
        cases served.2
        exact holds
      refine .bind ?_ fun _ => .bind (mapped _ _ _) fun _ => .get_bind fun s => ?_
      · exact (mapped _ _ _).strengthen fun p holds => holds.resolve_left made
      · refine .bind (M := fun _ => Opened before blocked fun t => t.entry ring.res.toNat =
          some ringEntry) (.quiet (fun _ => rfl) fun _ _ => id) fun _ => .pure fun _ => id

theorem submits_triple {pre : Process limit (Source F) → Prop}
    (f : Submission.State IoUringSqe → Option (Submission.State IoUringSqe)) :
    Triple serve pre (submits f) (fun _ => pre) anyway := by
  refine .get_bind fun s => ?_
  split
  · exact .stop fun _ _ => trivial
  · exact .quiet (fun _ => rfl) fun _ _ => id

variable (ints : limit ≤ 2 ^ 31)
include ints

/-- The descriptor of the signals survives its way through the global. -/
theorem init_triple (g : Globals) {ringfd : Int} :
    Triple serve (Opened before blocked fun t => t.entry ringfd.toNat = some ringEntry) (init file stale g)
      (fun g' => Opened before blocked fun t => t.entry ringfd.toNat = some ringEntry ∧
        t.entry g'.sigfd.toInt.toNat = some (signalsEntry allsignals)) anyway := by
  refine .bind (allocates_triple file stale _ (signalsEntry allsignals) (fun _ _ => rfl) ?_) fun sigfd => ?_
  · exact fun holds opened => alloc_keeps opened holds
  refine .bind (submits_triple _) fun _ => .bind (submits_triple _) fun _ => .pure ?_
  rintro p ⟨t, console, ⟨ring, positive, signals⟩, rfl⟩
  refine ⟨t, console, ⟨ring, ?_⟩, rfl⟩
  have below : sigfd.res.toNat < limit := by
    by_contra outside
    cases (t.within _ (by omega)).symm.trans signals
  have same : (Int32.ofInt sigfd.res).toInt = sigfd.res :=
    Int32.toInt_ofInt_of_le (by omega) (by omega)
  rw [same]
  exact signals

theorem start_triple (files : Sources) (g : Globals) :
    Triple serve (· = before) (start files g)
      (fun out => Opened before allsignals fun t => t.entry out.1.ringfd.toNat = some ringEntry ∧
        t.entry out.2.sigfd.toInt.toNat = some (signalsEntry allsignals)) anyway := by
  refine .bind (openConsole_triple _ _) fun _ => .bind (quietKernel_triple _ _) fun _ => ?_
  refine .bind (uringInit_triple _ _ _) fun uring => ?_
  refine .bind (M := fun _ => Opened before allsignals fun t =>
    t.entry uring.ringfd.toNat = some ringEntry) (syscheck_triple _ _ _ ?_) fun _ => ?_
  · rintro p r p' ⟨t, console, ring, rfl⟩ succeeds served
    rw [serve, if_neg (by omega)] at served
    cases served
    exact ⟨t, console, ring, rfl⟩
  refine .bind (init_triple _ _ ints g) fun g' => ?_
  refine .bind (allocates_triple _ _ _ _ (fun _ _ => rfl) ?_) fun _ => .pure ?_
  · exact fun holds opened => ⟨alloc_keeps opened holds.1, alloc_keeps opened holds.2⟩
  · rintro p ⟨t, console, ⟨holds, -⟩, rfl⟩
    exact ⟨t, console, holds, rfl⟩

end Stages
end Kernel

section Requests
variable {w w' : World}

theorem syscheck_blind (file stale : List UInt8) (line : String) (call : Call) :
    Blind (fun _ => True) (syscheck file stale line call) :=
  Macro.syscheck_blind (fun _ _ => trivial) file stale line call

theorem openConsole_blind (file stale : List UInt8) : Blind (fun _ => True) (openConsole file stale) := by
  refine .bind (.ask trivial _) fun _ => .bind (syscheck_blind _ _ _ _) fun _ => ?_
  refine .bind (syscheck_blind _ _ _ _) fun _ => .bind (syscheck_blind _ _ _ _) fun _ => ?_
  refine .bind (syscheck_blind _ _ _ _) fun _ => .bind (syscheck_blind _ _ _ _) fun _ => ?_
  refine .bind (syscheck_blind _ _ _ _) fun _ => .bind (syscheck_blind _ _ _ _) fun _ => ?_
  refine .bind (syscheck_blind _ _ _ _) fun _ => .bind (syscheck_blind _ _ _ _) fun _ => .pure _

theorem quietKernel_blind (file stale : List UInt8) : Blind (fun _ => True) (quietKernel file stale) := by
  refine .bind (syscheck_blind _ _ _ _) fun _ => .bind (syscheck_blind _ _ _ _) fun _ => ?_
  exact .bind (syscheck_blind _ _ _ _) fun _ => .pure _

theorem blind_returns {m : Proc α} (blind : Blind A m) (ran : m w = (.ok a, w')) :
    w'.state = w.state := by
  have kept := blind.keeps w
  rwa [ran] at kept

theorem submits_returns {f : Submission.State IoUringSqe → Option (Submission.State IoUringSqe)}
    (ran : submits f w = (.ok (), w')) : f w.state = some w'.state := by
  simp only [submits, bind_returns, get_apply] at ran
  obtain ⟨s, v, ⟨⟩, later⟩ := ran
  cases found : f w.state with
  | none =>
    rw [found] at later
    cases later
  | some s =>
    rw [found] at later
    cases later
    rfl

theorem uringInit_returns (ran : uringInit file stale size w = (.ok q, w')) :
    w'.state = { w.state with uring := ⟨0, 0⟩ } := by
  obtain ⟨p, v, set_up, ran⟩ := bind_returns.mp ran
  have kept := blind_returns (A := fun _ => True) (.ask trivial _) set_up
  rw [← kept]
  split at ran
  · cases ran
  · split at ran
    · cases ran
    · obtain ⟨ring, v₁, ring_ran, ran⟩ := bind_returns.mp ran
      obtain ⟨sqes, v₂, sqes_ran, ran⟩ := bind_returns.mp ran
      obtain ⟨s, v₃, got, ran⟩ := bind_returns.mp ran
      obtain ⟨done, v₄, stored, ran⟩ := bind_returns.mp ran
      cases got
      cases stored
      cases ran
      rw [← blind_returns (syscheck_blind _ _ _ _) ring_ran,
        ← blind_returns (syscheck_blind _ _ _ _) sqes_ran]

/-- `start` leaves the rings as `init` has made them. -/
theorem start_returns (ran : start files g w = (.ok (q, g'), w')) :
    ∃ sub, createConsolePrompt g' { w.state with uring := ⟨0, 0⟩ } = some sub ∧
      submitSigListen g' sub = some w'.state := by
  obtain ⟨_, w₁, opened, ran⟩ := bind_returns.mp ran
  obtain ⟨_, w₂, quiet, ran⟩ := bind_returns.mp ran
  obtain ⟨uring, w₃, set_up, ran⟩ := bind_returns.mp ran
  obtain ⟨_, w₄, blocked, ran⟩ := bind_returns.mp ran
  obtain ⟨g₁, w₅, inits, ran⟩ := bind_returns.mp ran
  obtain ⟨_, w₆, socket, ran⟩ := bind_returns.mp ran
  cases ran
  obtain ⟨sigfd, v₁, made, inits⟩ := bind_returns.mp inits
  obtain ⟨_, v₂, prompts, inits⟩ := bind_returns.mp inits
  obtain ⟨_, v₃, listens, inits⟩ := bind_returns.mp inits
  cases inits
  have before : v₁.state = { w.state with uring := ⟨0, 0⟩ } := by
    rw [blind_returns (syscheck_blind _ _ _ _) made, blind_returns (syscheck_blind _ _ _ _) blocked,
      uringInit_returns set_up, blind_returns (quietKernel_blind _ _) quiet,
      blind_returns (openConsole_blind _ _) opened]
  refine ⟨v₂.state, ?_, ?_⟩
  · rw [← before]
    exact submits_returns prompts
  · rw [blind_returns (syscheck_blind _ _ _ _) socket]
    exact submits_returns listens

/-- The event loop begins with the rings that `init` leaves. -/
theorem init_begins {g : Globals} {sub sub' : Submission.State IoUringSqe}
    (prompts : createConsolePrompt g (EventLoop.start bits sqArray cqes).sub = some sub)
    (listens : submitSigListen g sub = some sub') :
    ∃ s, EventLoop.step g (EventLoop.start bits sqArray cqes) (.init true true) = some s ∧
      s.pc = .wait ∧ s.sub = sub' ∧
      s.queued = [Kind.prompt, .console, .signal].map (·.template g) := by
  have fresh : Stocked g (EventLoop.start bits sqArray cqes).sub [] :=
    ⟨Submission.start_inv (by decide) _ _, rfl, fun _ => ⟨rfl, rfl, rfl, rfl, rfl, rfl⟩⟩
  obtain ⟨sub₁, first, stocked₁, -⟩ := fresh.createConsolePrompt (by decide)
  obtain ⟨sub₂, second, stocked₂, -⟩ := stocked₁.submitSigListen (by decide)
  cases first.symm.trans prompts
  cases second.symm.trans listens
  refine ⟨EventLoop.init g (EventLoop.start bits sqArray cqes) true true, ?_, ?_⟩
  · rfl
  · simp only [EventLoop.init, first, second, if_true]
    refine ⟨trivial, trivial, ?_⟩
    rw [EventLoop.State.queued, stocked₂.queued]
    rfl

end Requests

/-- What a request of each kind is about, when init was started with these descriptors. -/
def target (before : Table limit (Object (Source F))) : Kind → Entry (Object (Source F))
  | .prompt => (before.entry 1).getD (if (before.entry 0).isNone then consoleOut else consoleIn)
  | .console => (before.entry 0).getD consoleIn
  | .signal => signalsEntry allsignals

/-- Whatever descriptors the kernel starts init with and however it answers, when `start`
gets to its loop the rings are as the loop is known to begin with, every signal that can be
blocked is, standard error is the console, and the three requests of the loop are about the
file they are meant for, after any run of commands as well. For the prompt and the console
that is the console exactly as far as init was started without standard input and output. -/
theorem requests_reach_files {limit : Nat} {F : Type} (ints : limit ≤ 2 ^ 31) (env : Env)
    (files : Sources) (g : Globals) (answers : List Reply) (bits : Nat)
    (sqArray : UInt32 → UInt32) (cqes : UInt32 → IoUringCqe)
    (before p p' : Process limit (Source F)) (runs : before.image = none)
    (ran : start files g ⟨Submission.start 4 sqArray fun _ => .zero, answers, []⟩ = (.ok (q, g'), w))
    (served : Transition.run serve before w.asked = some p)
    (commands : Transition.run (Inheritance.step env) p calls = some p') :
    (∃ s, EventLoop.step g' (EventLoop.start bits sqArray cqes) (.init true true) = some s ∧
      s.pc = .wait ∧ s.sub = w.state ∧ s.queued = [Kind.prompt, .console, .signal].map (·.template g')) ∧
    p'.blocked = allsignals ∧ p'.files.entry 2 = some consoleOut ∧
    p'.files.entry q.ringfd.toNat = some ringEntry ∧
    ∀ k : Kind, p'.files.entry (k.template g').fd.toInt.toNat = some (target before.files k) := by
  have ended := (start_triple ints files g).ends (w := ⟨Submission.start 4 sqArray fun _ => .zero,
    answers, []⟩) rfl rfl (by rw [ran]; exact served)
  rw [ran] at ended
  obtain ⟨t, console, ⟨ring, signals⟩, rfl⟩ := ended
  obtain ⟨-, blocked, -, -, kept⟩ := init_undisturbed ints commands runs
  obtain ⟨sub, first, second⟩ := start_returns ran
  refine ⟨init_begins first second, blocked, kept _ _ console.error, kept _ _ ring, ?_⟩
  intro k
  cases k with
  | prompt => exact kept _ _ console.output
  | console => exact kept _ _ console.input
  | signal => exact kept _ _ signals

/-- An init that starts without descriptors, as one from an initial file system without a
console does, and a command that leaves a file open. -/
theorem requests_reach_files_console : ∃ (g : Globals) (p : Process 1024 (Source Nat)),
    p.blocked = allsignals ∧ g.sigfd = 4 ∧ p.files.entry 0 = some consoleIn ∧
    p.files.entry 1 = some consoleOut ∧ p.files.entry 2 = some consoleOut ∧
    p.files.entry 4 = some (signalsEntry allsignals) ∧ p.files.entry 6 ≠ none := by
  let plain (res : Int) : Reply := ⟨res, ⟨0, 0, ⟨0, 0, 0, 0, 0⟩, ⟨0, 0, 0, 0, 0⟩⟩, 1⟩
  let answers := [0, 0, 0, 0, 0, 0, 0, 0, 1, 2, 3, 1, 0, 3, 4096, 8192, 0, 4, 5].map plain
  let g : Globals := ⟨0, 0, 1, 0, by decide⟩
  let before : Process 1024 (Source Nat) := ⟨Table.empty, 0, [], none, false⟩
  let fresh : World := ⟨Submission.start 4 (fun _ => 0) fun _ => .zero, answers, []⟩
  let calls : List Descriptors.Invocation := [⟨ascii "cat x", [], [⟨6, [], []⟩, ⟨0, [], []⟩], by decide⟩]
  have returned : (start ⟨[], [], []⟩ g fresh).1.toOption.map (fun out => out.2.sigfd) = some 4 := by
    decide +kernel
  have evaluated : ((Transition.run serve before (start ⟨[], [], []⟩ g fresh).2.asked).bind fun p =>
      Transition.run (Inheritance.step ⟨[], [], []⟩) p calls).map
        (fun p => (p.files.entry 6).isSome) = some true := by
    decide +kernel
  obtain ⟨p', followed, leaked⟩ := Option.map_eq_some_iff.mp evaluated
  obtain ⟨p, served, commands⟩ := Option.bind_eq_some_iff.mp followed
  rcases same : start ⟨[], [], []⟩ g fresh with ⟨e | ⟨q, g'⟩, w⟩
  · rw [same] at returned
    cases returned
  · rw [same] at served returned
    have sigfd : g'.sigfd = 4 := Option.some.inj returned
    obtain ⟨-, blocked, error, -, requests⟩ := requests_reach_files (by decide) ⟨[], [], []⟩ ⟨[], [], []⟩ g
      answers 5 (fun _ => 0) (fun _ => ⟨0, 0, 0⟩) before p p' rfl same served commands
    have signals : p'.files.entry g'.sigfd.toInt.toNat = some (signalsEntry allsignals) :=
      requests .signal
    rw [sigfd] at signals
    exact ⟨g', p', blocked, sigfd, requests .console, requests .prompt, error, signals,
      Option.isSome_iff_ne_none.mp leaked⟩

end MinLinux.Init.Boot
