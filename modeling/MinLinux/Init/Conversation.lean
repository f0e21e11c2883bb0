import MinLinux.Init.Guarantees
import MinLinux.Init.Session

/-! The event loop with the commands it runs. Completions of three kinds arrive in any
order while the bytes of the console wait in one buffer, yet what `process_input` asks of
the kernel is told by the console reads alone, in the order in which they were
completed, as long as no child of a command goes on in the loop and moves the rings. -/
namespace MinLinux.Init.Conversation
open Command Dialog Uring EventLoop Session
open Spawn (afterCommand starved hasEnded)

/-- `delivered` are the console reads completed so far, of which `handled` have been
handled; `asked` is the conversation of `process_input`. -/
structure State where
  loop : EventLoop.State
  answers : List Reply
  asked : List Command.Event
  delivered : List Session.Completion
  handled : Nat

theorem end_of_input : (0 : Int32) ≤ 0 := Int32.le_refl 0

/-- The completion of a console read; nothing else than the first two cases comes up. -/
def completion (res : Int32) (data : List UInt8) : Session.Completion :=
  if empty : res ≤ 0 then .ended res empty
  else if nonempty : data ≠ [] then
    if bounded : data.length ≤ 1024 then .read ⟨data, nonempty, bounded⟩
    else .ended 0 end_of_input
  else .ended 0 end_of_input

/-- What a completion in flight at `i` delivers. -/
def deliver (g : Globals) (s : EventLoop.State) (i : Nat) (res : Int32) (data : List UInt8) :
    List Session.Completion :=
  match s.inflight[i]? with
  | none => []
  | some op => if isConsoleRead g op.sqe then [completion res data] else []

/-- A command is one step here, from its first call to its return, that leaves the rings
alone: nothing is completed while it runs, and one that still waits for an answer has no
next state. -/
def handle (file : List UInt8) (env : Env) (g : Globals) (s : State) (cqe : UInt32) :
    Option State :=
  let entry := s.loop.comp.cq.cqes cqe
  if entry.userData = EVENT_CONSOLE_READ then
    let out := Session.processInput file env entry.res ⟨s.loop.buffer, s.answers, s.asked⟩
    if starved out.1 then none
    else
      some { s with
        loop := { s.loop with pc := afterCommand cqe out.1, buffer := out.2.state }
        answers := out.2.answers
        asked := out.2.asked
        handled := s.handled + 1 }
  else some { s with loop := EventLoop.handle g s.loop cqe }

/-- A command is run where `handle` comes to it. -/
def step (file : List UInt8) (env : Env) (g : Globals) (s : State) :
    EventLoop.Action → Option State
  | .command _ _ => none
  | .handle =>
      match s.loop.pc with
      | .handle cqe => handle file env g s cqe
      | _ => none
  | .complete i res flags data =>
      (EventLoop.step g s.loop (.complete i res flags data)).map fun after =>
        { s with loop := after, delivered := s.delivered ++ deliver g s.loop i res data }
  | a => (EventLoop.step g s.loop a).map fun after => { s with loop := after }

def start (bits : Nat) (sqArray : UInt32 → UInt32) (cqes : UInt32 → IoUringCqe)
    (answers : List Reply) : State :=
  ⟨EventLoop.start bits sqArray cqes, answers, [], [], 0⟩

def State.reads (s : State) : List Session.Completion := s.delivered.take s.handled

/-- The reads delivered and not handled. -/
def State.pending (s : State) : List Session.Completion := s.delivered.drop s.handled

/-- The completion in front has been handled when a prompt or an advance comes next. -/
def waiting (s : EventLoop.State) : List IoUringCqe :=
  match s.pc with
  | .prompt _ | .advance => s.comp.unretired.tail
  | _ => s.comp.unretired

def isConsole (cqe : IoUringCqe) : Bool := cqe.userData == EVENT_CONSOLE_READ

/-- The results of the console reads among them. -/
def fresh (s : EventLoop.State) : List Int32 := ((waiting s).filter isConsole).map (·.res)

/-- The buffer once the reads are stored to it. -/
def stored (reads : List Session.Completion) (buffer : List UInt8) : List UInt8 :=
  reads.foldl (fun buffer c => c.data ++ buffer.drop c.data.length) buffer

/-- What a process that goes on knows. -/
structure Alive (file : List UInt8) (env : Env) (g : Globals) (bits : Nat) (w : World) (s : State) :
    Prop where
  tracks : ∃ tokens, Tracks g bits s.loop tokens
  fresh : fresh s.loop = s.pending.map Session.Completion.res
  ran : ∃ buffer, session file env s.reads w = (.ok (), ⟨buffer, s.answers, s.asked⟩) ∧
    s.loop.buffer = stored s.pending buffer

structure Inv (file : List UInt8) (env : Env) (g : Globals) (bits : Nat) (w : World) (s : State) :
    Prop where
  handled_le : s.handled ≤ s.delivered.length
  asked : s.asked = (session file env s.reads w).2.asked
  answers : s.answers = (session file env s.reads w).2.answers
  alive : hasEnded s.loop.pc = false → Alive file env g bits w s

section Loop
variable {g : Globals} {bits : Nat} {s s' : EventLoop.State} {t : Tokens}

theorem unretired_advance (q : Completion.Queue β) : q.advance.unretired = q.unretired.tail := by
  rw [Completion.Queue.unretired, Completion.Queue.unretired, Completion.Queue.advance,
    List.tail_drop]

/-- The steps that neither handle nor deliver anything. -/
def quiet : EventLoop.Action → Bool
  | .handle | .command _ _ | .complete _ _ _ _ => false
  | _ => true

theorem init_quiet (pc : s.pc = .start) :
    (EventLoop.init g s signalfdOk socketOk).buffer = s.buffer ∧
      (hasEnded (EventLoop.init g s signalfdOk socketOk).pc = false →
        waiting (EventLoop.init g s signalfdOk socketOk) = waiting s) := by
  cases signalfdOk with
  | false => exact ⟨rfl, fun ended => by cases ended⟩
  | true =>
    simp only [EventLoop.init, if_true]
    cases createConsolePrompt g s.sub with
    | none => exact ⟨rfl, fun ended => by cases ended⟩
    | some sub₁ =>
      dsimp only
      cases submitSigListen g sub₁ with
      | none => exact ⟨rfl, fun ended => by cases ended⟩
      | some sub₂ =>
        cases socketOk with
        | false => exact ⟨rfl, fun ended => by cases ended⟩
        | true =>
          refine ⟨rfl, fun _ => ?_⟩
          simp only [waiting, pc, if_true]

theorem quiet_step (silent : quiet a = true) (stepped : EventLoop.step g s a = some s') :
    hasEnded s.pc = false ∧ s'.buffer = s.buffer ∧
      (hasEnded s'.pc = false → waiting s' = waiting s) := by
  cases a with
  | handle => cases silent
  | command _ _ => cases silent
  | complete _ _ _ _ => cases silent
  | init signalfdOk socketOk =>
    obtain ⟨pc, rfl⟩ := step_init stepped
    refine ⟨by rw [pc]; rfl, init_quiet pc⟩
  | enter =>
    obtain ⟨pc, rfl⟩ := step_enter stepped
    refine ⟨by rw [pc]; rfl, rfl, ?_⟩
    intro _
    simp only [waiting, pc]
  | enterReturn res =>
    obtain ⟨pc, rfl⟩ := step_enterReturn stepped
    refine ⟨by rw [pc]; rfl, ?_, ?_⟩
    · split <;> rfl
    · intro _
      split <;> simp only [waiting, pc]
  | result =>
    obtain ⟨pc, ⟨-, rfl⟩ | ⟨cqe, -, rfl⟩⟩ := step_result stepped
    all_goals
      refine ⟨by rw [pc]; rfl, rfl, ?_⟩
      intro _
      simp only [waiting, pc]
  | prompt =>
    obtain ⟨cqe, pc, rfl⟩ := step_prompt stepped
    refine ⟨by rw [pc]; rfl, ?_, ?_⟩
    · cases createConsolePrompt g s.sub <;> rfl
    · cases createConsolePrompt g s.sub with
      | none => intro ended; cases ended
      | some sub =>
        intro _
        simp only [waiting, State.submitted, pc]
  | advance =>
    obtain ⟨pc, rfl⟩ := step_advance stepped
    refine ⟨by rw [pc]; rfl, rfl, ?_⟩
    intro _
    simp only [waiting, pc, unretired_advance]
  | consume =>
    obtain ⟨⟨pc, -⟩, rfl⟩ := step_consume stepped
    exact ⟨by rw [pc]; rfl, rfl, fun _ => rfl⟩

/-- A completion waits behind the others. -/
theorem waiting_post (tracks : Tracks g bits s t) (comp : s'.comp = s.comp.post cqe)
    (samePc : s'.pc = s.pc) : waiting s' = waiting s ++ [cqe] := by
  obtain ⟨represents, inv⟩ := tracks
  have circulates := inv.circulates
  have posted := represents.comp.inv.unretired_post cqe
  have length := represents.comp.unretired_length
  have occupied : ∀ {k rest}, t.done = k :: rest → s.comp.unretired ≠ [] := by
    intro k rest done none
    rw [none, done] at length
    cases length
  unfold waiting
  rw [samePc, comp, posted]
  cases pc : s.pc with
  | prompt cqe' =>
    simp only [Tokens.Circulates, represents.phase_eq pc rfl] at circulates
    obtain ⟨rest, done⟩ := List.head?_eq_some_iff.mp circulates.2
    exact List.tail_append_of_ne_nil (occupied done)
  | advance =>
    simp only [Tokens.Circulates, represents.phase_eq pc rfl] at circulates
    obtain ⟨k, rest, done⟩ := List.exists_cons_of_ne_nil circulates.2
    exact List.tail_append_of_ne_nil (occupied done)
  | _ => rfl

theorem inflight_kind {op : EventLoop.Op} {i : Nat} (tracks : Tracks g bits s t)
    (found : s.inflight[i]? = some op) : ∃ k : Kind, k.template g = op.sqe := by
  have member := List.mem_map_of_mem (f := EventLoop.Op.sqe) (List.mem_of_getElem? found)
  rw [tracks.1.inflight, List.mem_map] at member
  obtain ⟨k, -, entry⟩ := member
  exact ⟨k, entry⟩

/-- A console read by its number, and by the memory it is to store to. -/
theorem console_userData (g : Globals) (k : Kind) :
    (k.template g).userData = EVENT_CONSOLE_READ ↔ isConsoleRead g (k.template g) = true := by
  rw [isConsoleRead_template]
  cases k
  · exact iff_of_false (by decide : EVENT_OTHER ≠ EVENT_CONSOLE_READ) (by decide)
  · exact iff_of_true rfl rfl
  · exact iff_of_false (by decide : EVENT_SIGNAL ≠ EVENT_CONSOLE_READ) (by decide)

theorem console_stores (g : Globals) (k : Kind) :
    ((k.template g).opcode = IORING_OP_READ ∧ (k.template g).addr = g.buffer) ↔
      isConsoleRead g (k.template g) = true := by
  rw [isConsoleRead_template]
  cases k
  · have write : IORING_OP_WRITE ≠ IORING_OP_READ := by decide
    exact iff_of_false (fun same => write same.1) (by decide)
  · exact iff_of_true ⟨rfl, rfl⟩ rfl
  · exact iff_of_false (fun same => g.distinct same.2.symm) (by decide)

/-- The completion stands for what the kernel has posted and stored. -/
theorem completion_eq (fits : res.toInt ≤ 1024) (brings : data.length = res.toInt.toNat) :
    (completion res data).res = res ∧ (completion res data).data = data := by
  rw [completion]
  split
  · rename_i empty
    have low : res.toInt ≤ 0 := Int32.le_iff_toInt_le.mp empty
    exact ⟨rfl, (List.eq_nil_of_length_eq_zero (by omega)).symm⟩
  · rename_i positive
    have low : ¬res.toInt ≤ 0 := fun low => positive (Int32.le_iff_toInt_le.mpr low)
    have nonempty : data ≠ [] := List.ne_nil_of_length_pos (by omega)
    rw [dif_pos nonempty, dif_pos (by omega)]
    refine ⟨?_, rfl⟩
    change Int32.ofNat data.length = res
    rw [← Int32.toInt_inj, Int32.toInt_ofNat_of_lt (by omega)]
    omega

end Loop

section Steps
variable {file : List UInt8} {env : Env} {g : Globals} {bits : Nat} {w : World} {s s' : State}

theorem quiet_inv (large : 3 ≤ 2 ^ bits) (inv : Inv file env g bits w s) (silent : quiet a = true)
    (stepped : EventLoop.step g s.loop a = some after) :
    Inv file env g bits w { s with loop := after } := by
  obtain ⟨running, buffer, same⟩ := quiet_step silent stepped
  obtain ⟨⟨_, tracks⟩, was, ran⟩ := inv.alive running
  obtain ⟨-, tokens, -, tracks⟩ := step_tracks large tracks stepped
  refine ⟨inv.handled_le, inv.asked, inv.answers, fun still => ⟨⟨tokens, tracks⟩, ?_, ?_⟩⟩
  · exact (congrArg (fun l => (l.filter isConsole).map (·.res)) (same still)).trans was
  · obtain ⟨old, returned, holds⟩ := ran
    exact ⟨old, returned, buffer.trans holds⟩

theorem complete_inv (large : 3 ≤ 2 ^ bits) (inv : Inv file env g bits w s)
    (stepped : EventLoop.step g s.loop (.complete i res flags data) = some after) :
    Inv file env g bits w
      { s with loop := after, delivered := s.delivered ++ deliver g s.loop i res data } := by
  have reads : (s.delivered ++ deliver g s.loop i res data).take s.handled = s.reads :=
    List.take_append_of_le_length inv.handled_le
  have pending : (s.delivered ++ deliver g s.loop i res data).drop s.handled =
      s.pending ++ deliver g s.loop i res data := List.drop_append_of_le_length inv.handled_le
  obtain ⟨op, found, allowed, same⟩ := step_complete stepped
  have unmoved : after.pc = s.loop.pc := by rw [same]; rfl
  refine ⟨?_, ?_, ?_, ?_⟩
  · rw [List.length_append]
    exact Nat.le_trans inv.handled_le (Nat.le_add_right _ _)
  · rw [State.reads, reads]
    exact inv.asked
  · rw [State.reads, reads]
    exact inv.answers
  · intro running
    obtain ⟨⟨tokens, tracks⟩, was, buffer, returned, holds⟩ := inv.alive (unmoved ▸ running)
    obtain ⟨-, tokens', -, tracks'⟩ := step_tracks large tracks stepped
    obtain ⟨k, kind⟩ := inflight_kind tracks found
    simp only [Bool.and_eq_true, Bool.not_eq_true', mayComplete, decide_eq_true_eq] at allowed
    obtain ⟨-, ⟨-, short⟩, brings⟩ := allowed
    have longest := k.template_len g
    rw [kind] at longest
    have posted : waiting after = waiting s.loop ++ [⟨op.sqe.userData, res, flags⟩] :=
      waiting_post tracks (by rw [same]; rfl) unmoved
    have byNumber := console_userData g k
    have byPlace := console_stores g k
    rw [kind] at byNumber byPlace
    refine ⟨⟨tokens', tracks'⟩, ?_, buffer, ?_, ?_⟩
    · rw [State.pending, pending, fresh, posted, List.filter_append, List.map_append,
        List.map_append, ← was]
      apply congrArg (fresh s.loop ++ ·)
      by_cases console : isConsoleRead g op.sqe = true
      · rw [if_pos (byPlace.mpr console).1] at brings
        have stands := (completion_eq (Int.le_trans short (Int.ofNat_le.mpr longest)) brings).1
        have number : isConsole ⟨op.sqe.userData, res, flags⟩ = true :=
          beq_iff_eq.mpr (byNumber.mpr console)
        simp only [deliver, found, console, if_true, List.map_singleton, stands,
          List.filter_singleton, number, cond_true]
      · have number : isConsole ⟨op.sqe.userData, res, flags⟩ = false :=
          beq_eq_false_iff_ne.mpr (mt byNumber.mp console)
        simp only [deliver, found, console, if_false, List.map_nil, List.filter_singleton,
          number, cond_false, Bool.false_eq_true]
    · rw [State.reads, reads]
      exact returned
    · rw [State.pending, pending, same, stored, List.foldl_append]
      change s.loop.buffer = List.foldl _ _ _ at holds
      rw [← holds]
      by_cases console : isConsoleRead g op.sqe = true
      · rw [if_pos (byPlace.mpr console).1] at brings
        have stands := (completion_eq (Int.le_trans short (Int.ofNat_le.mpr longest)) brings).2
        simp only [EventLoop.complete, if_pos (byPlace.mpr console), deliver, found, console,
          if_true, List.foldl_cons, List.foldl_nil, stands]
      · simp only [EventLoop.complete, if_neg (mt byPlace.mp console), deliver, found, console,
          if_false, List.foldl_nil, Bool.false_eq_true]

/-- One read more, after those that have been handled. -/
theorem session_next (c : Session.Completion)
    (ran : session file env reads w = (.ok (), ⟨buffer, answers, asked⟩)) :
    session file env (reads ++ [c]) w =
      Session.processInput file env c.res ⟨stored [c] buffer, answers, asked⟩ := by
  have last : session file env [c] =
      (store c.data >>= fun _ => Session.processInput file env c.res) >>= fun _ => pure () := rfl
  rw [session, forM_append, ← session, bind_ok _ ran, ← session, last]
  rcases out : Session.processInput file env c.res ⟨stored [c] buffer, answers, asked⟩ with
    ⟨e | ⟨⟩, after⟩
  · exact bind_error _ out
  · exact bind_ok _ out

theorem processInput_cases (loop : EventLoop.State) (cqe : UInt32) (res : Int32) :
    (∃ buffer, EventLoop.processInput loop cqe res =
        { loop with pc := .command cqe, buffer := buffer }) ∨
      EventLoop.processInput loop cqe res = { loop with pc := .prompt cqe } ∨
      EventLoop.processInput loop cqe res = { loop with pc := .exited } ∨
      EventLoop.processInput loop cqe res = { loop with pc := .fault } := by
  unfold EventLoop.processInput
  split
  · split
    · exact .inr (.inr (.inr rfl))
    · split
      · exact .inl ⟨_, rfl⟩
      · exact .inr (.inl rfl)
  · exact .inr (.inr (.inl rfl))

theorem errexit_stops (file : List UInt8) (line msg : String) (w : World) :
    (errexit file line msg w).1 ≠ .ok () := by
  intro returned
  obtain ⟨_, _, -, stopped⟩ := bind_returns.mp (show errexit file line msg w =
    (.ok (), (errexit file line msg w).2) from Prod.ext returned rfl)
  cases stopped

/-- A console completion that has been handled leaves the loop at the prompt. -/
theorem handled_tracks {loop : EventLoop.State} (large : 3 ≤ 2 ^ bits)
    (tracks : Tracks g bits loop t) (pc : loop.pc = .handle cqe)
    (console : (loop.comp.cq.cqes cqe).userData = EVENT_CONSOLE_READ)
    (returned : Session.processInput file env (loop.comp.cq.cqes cqe).res
      ⟨loop.buffer, answers, asked⟩ = (.ok (), after)) :
    ∃ t', Tracks g bits { loop with pc := .prompt cqe, buffer := after.state } t' := by
  have stepped : EventLoop.step g loop .handle = some (EventLoop.handle g loop cqe) := by
    simp only [EventLoop.step, pc]
  have input : EventLoop.handle g loop cqe =
      EventLoop.processInput loop cqe (loop.comp.cq.cqes cqe).res := if_pos console
  obtain ⟨-, t₁, -, tracks₁⟩ := step_tracks large tracks stepped
  have follows := @processInput_follows file env loop cqe
    (loop.comp.cq.cqes cqe).res answers asked
  rw [returned] at follows
  rw [input] at tracks₁
  rcases processInput_cases loop cqe (loop.comp.cq.cqes cqe).res with
    ⟨buffer, same⟩ | same | same | same
  · rw [same] at follows tracks₁
    have length := processCommand_length env 0 ⟨buffer, answers, asked⟩
    change (_, _) = processCommand env 0 ⟨buffer, answers, asked⟩ at follows
    rw [← follows] at length
    have ran : EventLoop.step g { loop with pc := .command cqe, buffer := buffer }
        (.command after.state true) =
          some { loop with pc := .prompt cqe, buffer := after.state } := if_pos length
    obtain ⟨-, t₂, -, tracks₂⟩ := step_tracks large tracks₁ ran
    exact ⟨t₂, tracks₂⟩
  · rw [same] at follows tracks₁
    change (_, _) = writeStr _ ⟨loop.buffer, answers, asked⟩ at follows
    have kept := (writeStr_blind any_stop (ascii "No end of line.\n")).keeps
      ⟨loop.buffer, answers, asked⟩
    rw [← follows] at kept
    rw [show after.state = loop.buffer from kept]
    exact ⟨t₁, tracks₁⟩
  · rw [same] at follows
    change (_, _) = ite _ _ _ at follows
    split at follows
    · exact absurd (congrArg Prod.fst follows).symm (errexit_stops _ _ _ _)
    · exact absurd (congrArg Prod.fst follows).symm (errexit_stops _ _ _ _)
  · rw [same] at follows
    cases follows

theorem console_count (entries : List.Forall₂ (Completes g) cqes ks) :
    (cqes.filter isConsole).length = ks.count .console := by
  induction entries with
  | nil => rfl
  | @cons cqe k cqes ks first _ ih =>
    have number := console_userData g k
    rw [← first.1, isConsoleRead_template, beq_iff_eq] at number
    by_cases console : k = .console
    · have positive : isConsole cqe = true := beq_iff_eq.mpr (number.mpr console)
      rw [List.filter_cons_of_pos positive, List.length_cons, ih, console, List.count_cons_self]
    · have negative : isConsole cqe = false := beq_eq_false_iff_ne.mpr (mt number.mp console)
      rw [List.filter_cons_of_neg (Bool.eq_false_iff.mp negative), ih, List.count_cons_of_ne console]

/-- The completion being handled is the first one not handled, and the only one of a
console read when it is one. -/
theorem waiting_front {loop : EventLoop.State} (tracks : Tracks g bits loop t)
    (pc : loop.pc = .handle cqe) : ∃ rest, waiting loop = loop.comp.cq.cqes cqe :: rest ∧
      loop.comp.unretired.tail = rest ∧
      (isConsole (loop.comp.cq.cqes cqe) = true → rest.filter isConsole = []) := by
  obtain ⟨represents, inv⟩ := tracks
  have circulates := inv.circulates
  simp only [Tokens.Circulates, represents.phase_eq pc rfl] at circulates
  obtain ⟨k, ks, done⟩ := List.exists_cons_of_ne_nil circulates.2
  have entries := represents.comp.entries
  rw [done] at entries
  cases unretired : loop.comp.unretired with
  | nil =>
    rw [unretired] at entries
    cases entries
  | cons e rest =>
    rw [unretired] at entries
    have front : loop.comp.cq.cqes cqe = e := by
      rw [represents.pointer cqe pc]
      exact represents.comp.inv.front unretired
    refine ⟨rest, ?_, rfl, ?_⟩
    · simp only [waiting, pc, unretired, front]
    · rw [front]
      intro console
      have total := console_count entries
      have single := circulates.1.console
      rw [List.filter_cons_of_pos console, List.length_cons] at total
      simp only [Tokens.pipeline, done, List.count_append] at single
      exact List.eq_nil_of_length_eq_zero (by omega)

/-- Another completion leaves the buffer alone. -/
theorem other_handled {loop : EventLoop.State}
    (other : (loop.comp.cq.cqes cqe).userData ≠ EVENT_CONSOLE_READ) :
    (EventLoop.handle g loop cqe).buffer = loop.buffer ∧
      (hasEnded (EventLoop.handle g loop cqe).pc = false →
        waiting (EventLoop.handle g loop cqe) = loop.comp.unretired.tail) := by
  simp only [EventLoop.handle, if_neg other]
  split
  · cases submitSigListen g loop.sub with
    | none => exact ⟨rfl, fun ended => by cases ended⟩
    | some sub => exact ⟨rfl, fun _ => rfl⟩
  · split
    · split
      · exact ⟨rfl, fun ended => by cases ended⟩
      · exact ⟨rfl, fun _ => rfl⟩
    · exact ⟨rfl, fun _ => rfl⟩

theorem handle_inv (large : 3 ≤ 2 ^ bits) (inv : Inv file env g bits w s)
    (pc : s.loop.pc = .handle cqe) (handled : handle file env g s cqe = some s') :
    Inv file env g bits w s' := by
  obtain ⟨⟨t, tracks⟩, was, buffer, ran, holds⟩ := inv.alive (by rw [pc]; rfl)
  obtain ⟨rest, front, tail, only⟩ := waiting_front tracks pc
  by_cases console : (s.loop.comp.cq.cqes cqe).userData = EVENT_CONSOLE_READ
  · simp only [handle, if_pos console, Option.ite_none_left_eq_some] at handled
    obtain ⟨-, same⟩ := handled
    have number : isConsole (s.loop.comp.cq.cqes cqe) = true := beq_iff_eq.mpr console
    rw [fresh, front, List.filter_cons_of_pos number, only number] at was
    obtain ⟨c, pending, result⟩ := List.map_eq_singleton_iff.mp was.symm
    have all : s.reads ++ [c] = s.delivered := by
      rw [← pending]
      exact List.take_append_drop _ _
    have count : s.delivered.length = s.handled + 1 := by
      rw [← all, List.length_append, State.reads, List.length_take_of_le inv.handled_le]
      rfl
    have next := session_next c ran
    rw [pending] at holds
    rw [all, result, ← holds] at next
    rcases out : Session.processInput file env (s.loop.comp.cq.cqes cqe).res
        ⟨s.loop.buffer, s.answers, s.asked⟩ with ⟨outcome, after⟩
    rw [out] at next same
    cases same
    have reads : s.delivered.take (s.handled + 1) = s.delivered :=
      List.take_of_length_le (Nat.le_of_eq count)
    refine ⟨Nat.le_of_eq count.symm, ?_, ?_, ?_⟩
    · simp only [State.reads, reads, next]
    · simp only [State.reads, reads, next]
    · intro running
      cases outcome with
      | error e => cases e <;> cases running
      | ok =>
        refine ⟨handled_tracks large tracks pc console out, ?_, after.state, ?_, ?_⟩
        · have none : s.delivered.drop (s.handled + 1) = [] :=
            List.drop_of_length_le (Nat.le_of_eq count)
          simp only [fresh, waiting, afterCommand, tail, only number, State.pending, none,
            List.map_nil]
        · simp only [State.reads, reads, next]
        · have none : s.delivered.drop (s.handled + 1) = [] :=
            List.drop_of_length_le (Nat.le_of_eq count)
          simp only [State.pending, none]
          rfl
  · simp only [handle, if_neg console, Option.some.injEq] at handled
    have stepped : EventLoop.step g s.loop .handle = some (EventLoop.handle g s.loop cqe) := by
      simp only [EventLoop.step, pc]
    obtain ⟨-, t', -, tracks'⟩ := step_tracks large tracks stepped
    obtain ⟨kept, later⟩ := other_handled (g := g) console
    cases handled
    refine ⟨inv.handled_le, inv.asked, inv.answers, fun running => ⟨⟨t', tracks'⟩, ?_, buffer,
      ran, kept.trans holds⟩⟩
    have negative : isConsole (s.loop.comp.cq.cqes cqe) = false := beq_eq_false_iff_ne.mpr console
    rw [fresh, front, List.filter_cons_of_neg (Bool.eq_false_iff.mp negative), ← tail,
      ← later running] at was
    exact was

theorem step_inv (large : 3 ≤ 2 ^ bits) (inv : Inv file env g bits w s)
    (stepped : step file env g s a = some s') : Inv file env g bits w s' := by
  cases a with
  | command _ _ => cases stepped
  | handle =>
    simp only [step] at stepped
    split at stepped
    · rename_i cqe pc
      exact handle_inv large inv pc stepped
    · cases stepped
  | complete i res flags data =>
    obtain ⟨after, inner, rfl⟩ := Option.map_eq_some_iff.mp stepped
    exact complete_inv large inv inner
  | _ =>
    obtain ⟨after, inner, rfl⟩ := Option.map_eq_some_iff.mp stepped
    exact quiet_inv large inv rfl inner

theorem start_inv (file : List UInt8) (env : Env) (g : Globals) (small : bits ≤ 16)
    (sqArray : UInt32 → UInt32) (cqes : UInt32 → IoUringCqe) (answers : List Reply) :
    Inv file env g bits ⟨List.replicate 1024 0, answers, []⟩ (start bits sqArray cqes answers) := by
  refine ⟨Nat.le_refl _, rfl, rfl, fun _ => ⟨⟨_, start_tracks (by omega) sqArray cqes⟩, rfl, ?_⟩⟩
  exact ⟨_, rfl, rfl⟩

/-- One console read is under way, so at most one waits to be handled. -/
theorem few_waiting {loop : EventLoop.State} (tracks : Tracks g bits loop t)
    (running : hasEnded loop.pc = false) : (fresh loop).length ≤ 1 := by
  obtain ⟨represents, inv⟩ := tracks
  have circulates := inv.circulates
  have all := console_count represents.comp.entries
  have later := console_count (List.forall₂_drop 1 represents.comp.entries)
  rw [List.drop_one, List.drop_one] at later
  have total : ∀ l, Tokens.Balanced (l ++ t.inflight ++ t.queued) → l.count .console ≤ 1 := by
    intro l balanced
    have single := balanced.console
    rw [List.count_append, List.count_append] at single
    omega
  rw [fresh, List.length_map, waiting]
  cases pc : loop.pc <;> simp only [pc, hasEnded, Bool.true_eq_false] at running <;>
    simp only [Tokens.Circulates, represents.phase_eq pc rfl] at circulates
  case prompt =>
    rw [later]
    exact Nat.le_trans ((List.tail_sublist _).count_le _) (total _ circulates.1)
  case advance =>
    obtain ⟨k, rest, done⟩ := List.exists_cons_of_ne_nil circulates.2
    rw [later, done]
    apply total
    rw [Tokens.pipeline, done] at circulates
    exact circulates.1
  case start =>
    simp only [Tokens.pipeline, List.append_eq_nil_iff] at circulates
    rw [all, circulates.1.1]
    exact Nat.zero_le _
  all_goals rw [all]
  case handle => exact total _ circulates.1
  case command => exact total _ circulates.1
  all_goals exact total _ circulates

/-- In every order of the steps of the program and of the kernel, where each command is one
of these steps and neither it nor a child of it moves the rings, the conversation is that of
the console reads handled so far, one after the other, and on a console in canonical mode
that of the lines typed. At most one read is waiting. -/
theorem conversation_in_order (file : List UInt8) (env : Env) (g : Globals) (small : bits ≤ 16)
    (large : 3 ≤ 2 ^ bits) (sqArray : UInt32 → UInt32) (cqes : UInt32 → IoUringCqe)
    (answers : List Reply)
    (ran : Transition.run (step file env g) (start bits sqArray cqes answers) acts = some s) :
    s.asked = (transcript file env s.reads ⟨[], answers, []⟩).2.asked ∧
    s.answers = (transcript file env s.reads ⟨[], answers, []⟩).2.answers ∧
    (∀ stream, s.reads = (chunks stream.length stream).map .read →
      s.asked = (interpret env (stream.splitOnP (· == 10)) ⟨[], answers, []⟩).2.asked) ∧
    (hasEnded s.loop.pc = false →
      (transcript file env s.reads ⟨[], answers, []⟩).1 = .ok () ∧ s.pending.length ≤ 1) := by
  have inv := Transition.run_invariant (fun kept stepped => step_inv large kept stepped)
    (start_inv file env g small sqArray cqes answers) ran
  have mirrors := session_mirrors file env s.reads ⟨List.replicate 1024 0, answers, []⟩
  have asked := inv.asked.trans (mirrors.asked [])
  refine ⟨asked, inv.answers.trans (mirrors.answers []), ?_, ?_⟩
  · intro stream reads
    rw [asked, reads, transcript_chunks file env (Nat.le_refl _)]
  · intro running
    obtain ⟨⟨t, tracks⟩, was, buffer, returned, -⟩ := inv.alive running
    constructor
    · rw [← mirrors.outcome [], returned]
    · rw [← List.length_map, ← was]
      exact few_waiting tracks running

/-- A command, with a signal between its line and its execution. -/
theorem conversation_in_order_env :
    ∃ s, Transition.run (step [] ⟨[], [[65, 61, 49]], []⟩ ⟨3, 100, 200, 300, by decide⟩)
        (start 5 (fun _ => 0) (fun _ => ⟨0, 0, 0⟩) [⟨3, [], []⟩, ⟨1, [], []⟩])
        [.init true true, .enter, .consume, .consume, .consume, .complete 0 9 0 [],
          .complete 0 4 0 [101, 110, 118, 10], .complete 0 (-4) 0 [], .enterReturn 3, .result,
          .handle, .advance, .enter, .enterReturn 0, .result, .handle, .prompt, .advance] = some s ∧
      s.asked = [(.write 1 [65, 61, 49], ⟨3, [], []⟩), (.write 1 [10], ⟨1, [], []⟩)] ∧
      s.asked = (transcript [] ⟨[], [[65, 61, 49]], []⟩ s.reads
        ⟨[], [⟨3, [], []⟩, ⟨1, [], []⟩], []⟩).2.asked ∧ s.pending = [] := by
  have seen : (Transition.run (step [] ⟨[], [[65, 61, 49]], []⟩ ⟨3, 100, 200, 300, by decide⟩)
      (start 5 (fun _ => 0) (fun _ => ⟨0, 0, 0⟩) [⟨3, [], []⟩, ⟨1, [], []⟩])
      [.init true true, .enter, .consume, .consume, .consume, .complete 0 9 0 [],
        .complete 0 4 0 [101, 110, 118, 10], .complete 0 (-4) 0 [], .enterReturn 3, .result,
        .handle, .advance, .enter, .enterReturn 0, .result, .handle, .prompt, .advance]).map
      (fun s => (s.asked, s.pending.length)) =
      some ([(.write 1 [65, 61, 49], ⟨3, [], []⟩), (.write 1 [10], ⟨1, [], []⟩)], 0) := by
    decide +kernel
  obtain ⟨s, ran, shown⟩ := Option.map_eq_some_iff.mp seen
  have told := conversation_in_order [] ⟨[], [[65, 61, 49]], []⟩ ⟨3, 100, 200, 300, by decide⟩
    (by decide) (by decide) (fun _ => 0) (fun _ => ⟨0, 0, 0⟩) _ ran
  exact ⟨s, ran, congrArg Prod.fst shown, told.1,
    List.eq_nil_of_length_eq_zero (congrArg Prod.snd shown)⟩

end Steps
end MinLinux.Init.Conversation
