import MinLinux.Init.Entries
import MinLinux.Init.Guarantees
import MinLinux.Uring.Shared

/-! The event loop of init.c on the bytes of the two mappings, with no history. It and
the loop on the rings go in lockstep, so what holds of the requests there holds of the
bytes the kernel reads here. Commands and their children leave the mappings alone here
as they leave the rings alone there. -/
namespace MinLinux.Init.Machine
open Bytes Uring Uring.Mapped MinLinux.Ring
open EventLoop (Pc)

structure State where
  pc : Pc
  uring : UringQueue
  mem : Mappings
  budget : Nat
  buffer : List UInt8
  inflight : List EventLoop.Op
  cancelNext : Bool

variable (m : Mapping) (g : Globals)

/-- A submission; a store through NULL or outside the mapping is a fault. -/
def submit (fields : List Assignment) (s : State) : Option State := do
  let (sqe, uring) ← uringNewSubmission m s.uring s.mem
  let sqe ← sqe
  let sqes ← assign (Mapping.sqeAt sqe).offset fields s.mem.sqes
  some { s with uring := uring, mem := { s.mem with sqes := sqes } }

def submitSigListen (s : State) : Option State := submit m (signalFields g) s

def createConsolePrompt (s : State) : Option State :=
  (submit m (promptFields g) s).bind (submit m (consoleFields g))

/-- Goes on at `pc` unless there was a fault. -/
def State.goto (s : State) (pc : Pc) : Option State → State
  | none => { s with pc := .fault }
  | some t => { t with pc := pc }

def init (s : State) (signalfdOk socketOk : Bool) : State :=
  if signalfdOk then
    s.goto (if socketOk then .wait else .exited)
      ((createConsolePrompt m g s).bind (submitSigListen m g))
  else { s with pc := .exited }

/-- `cqe->user_data` and `cqe->res`. -/
def userData (mem : Mappings) (cqe : UInt32) : Option UInt64 :=
  (mem.ring.load ((m.cqeAt cqe).offset + 0) 8).map fun bytes => UInt64.ofNat (ofLittleEndian bytes)

def res (mem : Mappings) (cqe : UInt32) : Option Int32 :=
  (mem.ring.load ((m.cqeAt cqe).offset + 8) 4).map fun bytes =>
    (UInt32.ofNat (ofLittleEndian bytes)).toInt32

def processInput (s : State) (cqe : UInt32) (res : Int32) : State :=
  if 0 < res then
    match s.buffer[(res.toInt - 1).toNat]? with
    | none => { s with pc := .fault }
    | some last =>
        if last = 10 then
          { s with
            pc := .command cqe
            buffer := s.buffer.set (res.toInt - 1).toNat 0 }
        else { s with pc := .prompt cqe }
  else { s with pc := .exited }

/-- Goes on with `cqe->res`. -/
def State.onRes (s : State) (cqe : UInt32) (next : Int32 → State) : State :=
  match res m s.mem cqe with
  | none => { s with pc := .fault }
  | some res => next res

def handle (s : State) (cqe : UInt32) : State :=
  match userData m s.mem cqe with
  | none => { s with pc := .fault }
  | some data =>
      if data = EVENT_CONSOLE_READ then s.onRes m cqe (processInput s cqe)
      else if data = EVENT_SIGNAL then s.goto .advance (submitSigListen m g s)
      else if data = EVENT_OTHER then
        s.onRes m cqe fun res =>
          if res < 0 then { s with pc := .exited } else { s with pc := .advance }
      else { s with pc := .advance }

def enter (s : State) : State :=
  match uringWait m s.uring s.mem 1 with
  | none => { s with pc := .fault }
  | some (enter, uring, mem) =>
      { s with pc := .entering, uring := uring, mem := mem, budget := enter.toSubmit.toNat }

def result (s : State) : State :=
  match uringResult m s.mem with
  | none => { s with pc := .fault }
  | some none => { s with pc := .wait }
  | some (some cqe) => { s with pc := .handle cqe }

def advance (s : State) : State :=
  match (load32 s.mem.ring m.cqHead.toNat).bind fun head =>
      store32 s.mem.ring m.cqHead.toNat (head + 1) with
  | none => { s with pc := .fault }
  | some ring => { s with pc := .wait, mem := { s.mem with ring := ring } }

/-- The kernel takes the next entry and keeps what its fields say. -/
def consume (s : State) : Option State := do
  let head ← load32 s.mem.ring m.sqHead.toNat
  let tail ← load32 s.mem.ring m.sqTail.toNat
  if s.pc = .entering ∧ 0 < s.budget ∧ head ≠ tail then
    let (entry, mem) ← consumeEntry m s.mem
    some { s with
      mem := mem
      budget := s.budget - 1
      inflight := s.inflight ++ [⟨IoUringSqe.decode entry, s.cancelNext⟩]
      cancelNext := false }
  else none

def complete (s : State) (i : Nat) (op : EventLoop.Op) (res : Int32) (flags : UInt32) (data : List UInt8) :
    Option State := do
  let rest := s.inflight.eraseIdx i
  let breaks := EventLoop.linked op.sqe && decide (res.toInt ≠ op.sqe.len.toNat)
  let mem ← post m s.mem (IoUringCqe.encode ⟨op.sqe.userData, res, flags⟩)
  some { s with
    mem := mem
    inflight := if breaks then rest.modify i (fun next => { next with canceled := true }) else rest
    cancelNext := s.cancelNext || (breaks && decide (i = rest.length))
    buffer := if op.sqe.opcode = IORING_OP_READ ∧ op.sqe.addr = g.buffer then
        data ++ s.buffer.drop data.length
      else s.buffer }

/-- The actions are those of the loop on the rings. -/
def step (s : State) : EventLoop.Action → Option State
  | .init signalfdOk socketOk => if s.pc = .start then some (init m g s signalfdOk socketOk) else none
  | .enter => if s.pc = .wait then some (enter m s) else none
  | .enterReturn res =>
      if s.pc = .entering then
        some (if res < 0 then { s with pc := .exited } else { s with pc := .result })
      else none
  | .result => if s.pc = .result then some (result m s) else none
  | .handle =>
      match s.pc with
      | .handle cqe => some (handle m g s cqe)
      | _ => none
  | .command buffer returns =>
      match s.pc with
      | .command cqe =>
          if buffer.length = s.buffer.length then
            some { s with pc := if returns then .prompt cqe else .exited, buffer := buffer }
          else none
      | _ => none
  | .prompt =>
      match s.pc with
      | .prompt _ => some (s.goto .advance (createConsolePrompt m g s))
      | _ => none
  | .advance => if s.pc = .advance then some (advance m s) else none
  | .consume => consume m s
  | .complete i res flags data =>
      match s.inflight[i]? with
      | none => none
      | some op =>
          if !EventLoop.blocked s.inflight i && EventLoop.mayComplete op res data then
            complete m g s i op res flags data
          else none

/-- The rings once the fields of their entries have been read. -/
def decodedSq (sqEntries : UInt32) (sq : SqRing Sqe) : SqRing IoUringSqe where
  sqHead := sq.sqHead
  sqTail := sq.sqTail
  sqMask := sq.sqMask
  sqEntries := sq.sqEntries
  sqArray := sq.sqArray
  sqes i := if i < sqEntries then IoUringSqe.decode (sq.sqes i) else IoUringSqe.zero

def decodedCq (cq : CqRing Cqe) : CqRing IoUringCqe where
  cqHead := cq.cqHead
  cqTail := cq.cqTail
  cqMask := cq.cqMask
  cqEntries := cq.cqEntries
  cqes i := IoUringCqe.decode (cq.cqes i)

/-- The same state of the loop, on the bytes and on the rings. -/
structure Stands (m : Mapping) (sqEntries cqEntries : UInt32) (s : State) (t : EventLoop.State) :
    Prop where
  pc : s.pc = t.pc
  uring : s.uring = t.sub.uring
  sq : decodedSq sqEntries (sqRing m sqEntries s.mem) = t.sub.sq
  cq : decodedCq (cqRing m cqEntries s.mem) = t.comp.cq
  budget : s.budget = t.sub.budget
  buffer : s.buffer = t.buffer
  inflight : s.inflight = t.inflight
  cancelNext : s.cancelNext = t.cancelNext
  sizes : Sizes m s.mem

section Decoded
variable {sqEntries : UInt32} {sq : SqRing Sqe} {cq : CqRing Cqe}

theorem uringWait_decoded (uring : UringQueue) (count : UInt32) :
    Uring.uringWait uring (decodedSq sqEntries sq) count =
      ((Uring.uringWait uring sq count).1, (Uring.uringWait uring sq count).2.1,
        decodedSq sqEntries (Uring.uringWait uring sq count).2.2) := by
  simp only [Uring.uringWait]
  split <;> rfl

theorem decodedSq_update (sq : SqRing Sqe) (within : i < sqEntries) (entry : Sqe) :
    decodedSq sqEntries { sq with sqes := Function.update sq.sqes i entry } =
      { decodedSq sqEntries sq with
        sqes := Function.update (decodedSq sqEntries sq).sqes i (IoUringSqe.decode entry) } := by
  simp only [decodedSq, SqRing.mk.injEq, true_and]
  funext j
  by_cases same : j = i
  · rw [same, Function.update_self, Function.update_self, if_pos within]
  · rw [Function.update_of_ne same, Function.update_of_ne same]

theorem decodedCq_update (i : UInt32) (entry : Cqe) (tail : UInt32) :
    decodedCq { cq with cqes := Function.update cq.cqes i entry, cqTail := tail } =
      { decodedCq cq with
        cqes := Function.update (decodedCq cq).cqes i (IoUringCqe.decode entry)
        cqTail := tail } := by
  simp only [decodedCq, CqRing.mk.injEq, true_and]
  funext j
  exact Function.apply_update (fun _ => IoUringCqe.decode) cq.cqes i entry j

theorem newSubmission_within (sized : Sized sqEntries sq.sqMask 4)
    (found : Uring.uringNewSubmission uring sq = (some sqe, uring')) : sqe < sqEntries := by
  simp only [Uring.uringNewSubmission] at found
  split at found
  · cases found
    exact UInt32.lt_iff_toNat_lt.mpr (sized.masked_lt _)
  · cases found

end Decoded

def requestFields (g : Globals) : Kind → List Assignment
  | .prompt => promptFields g
  | .console => consoleFields g
  | .signal => signalFields g

theorem decode_requestFields (g : Globals) (k : Kind) (entry : Sqe) :
    IoUringSqe.decode ((requestFields g k).foldl Assignment.apply entry) =
      k.write g (IoUringSqe.decode entry) := by
  cases k
  · exact decode_promptFields entry g
  · exact decode_consoleFields entry g
  · exact decode_signalFields entry g

section Steps
variable {m : Mapping} {g : Globals} {sqEntries cqEntries : UInt32} {bits : Nat} {s : State}
  {t : EventLoop.State} {queued : List Kind}
  (layout : Layout m sqEntries cqEntries) (sixteen : sqEntries = UInt32.ofNat (2 ^ 4))
  (cqSized : cqEntries = UInt32.ofNat (2 ^ bits))
  (stands : Stands m sqEntries cqEntries s t)

include sixteen stands in
theorem sq_sized (inv : Submission.Inv 4 t.sub) :
    Sized sqEntries (sqRing m sqEntries s.mem).sqMask 4 := by
  have sized := inv.sized
  rw [← stands.sq] at sized
  rw [sixteen, ← sized.entries_eq]
  exact sized

include layout sixteen stands in
theorem submit_stands (stocked : Stocked g t.sub queued) (room : queued.length < 16) (k : Kind) :
    ∃ s' sub, submit m (requestFields g k) s = some s' ∧ Init.submit (k.write g) t.sub = some sub ∧
      Stocked g sub (queued ++ [k]) ∧ Stands m sqEntries cqEntries s' { t with sub := sub } := by
  obtain ⟨sub, submitted, stocked', -⟩ := stocked.submit room k
  have reserved := uringNewSubmission_eq layout stands.sizes s.uring
  have same : Uring.uringNewSubmission t.sub.uring t.sub.sq =
      Uring.uringNewSubmission s.uring (sqRing m sqEntries s.mem) := by
    rw [← stands.sq, ← stands.uring]
    rfl
  rcases found : Uring.uringNewSubmission s.uring (sqRing m sqEntries s.mem) with ⟨_ | sqe, uring⟩
  · rw [Init.submit, same, found] at submitted
    cases submitted
  · rw [Init.submit, same, found] at submitted
    have within := newSubmission_within (sq_sized sixteen stands stocked.inv) found
    obtain ⟨sqes, assigned, size, entries⟩ :=
      assign_eq (requestFields g k) (sqes_inside layout stands.sizes within)
    have ran : submit m (requestFields g k) s =
        some { s with uring := uring, mem := { s.mem with sqes := sqes } } := by
      rw [submit, reserved, found]
      simp only [Option.bind_eq_bind, Option.bind_some, assigned]
    have filled := decodedSq_update (sqRing m sqEntries s.mem) within
      ((requestFields g k).foldl Assignment.apply (entryAt s.mem.sqes sqe))
    have read : (decodedSq sqEntries (sqRing m sqEntries s.mem)).sqes sqe =
        IoUringSqe.decode (entryAt s.mem.sqes sqe) := if_pos within
    rw [decode_requestFields, ← read, stands.sq] at filled
    refine ⟨_, sub, ran, by rw [Init.submit, same, found]; exact submitted, stocked', ?_⟩
    cases submitted
    refine ⟨stands.pc, rfl, ?_, stands.cq, stands.budget, stands.buffer, stands.inflight,
      stands.cancelNext, stands.sizes.ring, size.trans stands.sizes.sqes⟩
    rw [← filled]
    congr 1
    exact congrArg (fun sqes => { sqRing m sqEntries s.mem with sqes := sqes }) entries

include layout sixteen stands in
theorem createConsolePrompt_stands (stocked : Stocked g t.sub queued) (room : queued.length ≤ 3) :
    ∃ s' sub, createConsolePrompt m g s = some s' ∧ Init.createConsolePrompt g t.sub = some sub ∧
      Stocked g sub (queued ++ [.prompt, .console]) ∧
      Stands m sqEntries cqEntries s' { t with sub := sub } := by
  obtain ⟨s₁, sub₁, ran₁, submitted₁, stocked₁, stands₁⟩ :=
    submit_stands layout sixteen stands stocked (by omega) .prompt
  obtain ⟨s₂, sub₂, ran₂, submitted₂, stocked₂, stands₂⟩ :=
    submit_stands layout sixteen stands₁ stocked₁
      (by rw [List.length_append, List.length_singleton]; omega) .console
  rw [List.append_assoc] at stocked₂
  refine ⟨s₂, sub₂, ?_, ?_, stocked₂, stands₂⟩
  · exact (congrArg (Option.bind · _) ran₁).trans ran₂
  · exact (congrArg (Option.bind · _) submitted₁).trans submitted₂

include layout sixteen stands in
theorem submitSigListen_stands (stocked : Stocked g t.sub queued) (room : queued.length ≤ 5) :
    ∃ s' sub, submitSigListen m g s = some s' ∧ Init.submitSigListen g t.sub = some sub ∧
      Stands m sqEntries cqEntries s' { t with sub := sub } := by
  obtain ⟨s', sub, ran, submitted, -, stands'⟩ :=
    submit_stands layout sixteen stands stocked (by omega) .signal
  exact ⟨s', sub, ran, submitted, stands'⟩

theorem Stands.withPc (stands : Stands m sqEntries cqEntries s t) (pc : Pc) :
    Stands m sqEntries cqEntries { s with pc := pc } { t with pc := pc } :=
  ⟨rfl, stands.uring, stands.sq, stands.cq, stands.budget, stands.buffer, stands.inflight,
    stands.cancelNext, stands.sizes⟩

include layout sixteen stands in
theorem init_stands (stocked : Stocked g t.sub queued) (room : queued.length ≤ 3)
    (signalfdOk socketOk : Bool) :
    Stands m sqEntries cqEntries (init m g s signalfdOk socketOk)
      (EventLoop.init g t signalfdOk socketOk) := by
  cases signalfdOk with
  | false => exact stands.withPc .exited
  | true =>
    obtain ⟨s₁, sub₁, ran₁, created, stocked₁, stands₁⟩ :=
      createConsolePrompt_stands layout sixteen stands stocked room
    obtain ⟨s₂, sub₂, ran₂, listening, stands₂⟩ :=
      submitSigListen_stands layout sixteen stands₁ stocked₁
        (by rw [List.length_append]; exact Nat.add_le_add_right room 2)
    simp only [init, if_true, ran₁, Option.bind_some, ran₂, EventLoop.init, created, listening,
      State.goto]
    exact ⟨rfl, stands₂.uring, stands₂.sq, stands₂.cq, stands₂.budget, stands₂.buffer,
      stands₂.inflight, stands₂.cancelNext, stands₂.sizes⟩

theorem processInput_stands (stands : Stands m sqEntries cqEntries s t) (cqe : UInt32)
    (res : Int32) :
    Stands m sqEntries cqEntries (processInput s cqe res) (EventLoop.processInput t cqe res) := by
  have read : s.buffer[(res.toInt - 1).toNat]? = t.buffer[(res.toInt - 1).toNat]? := by
    rw [stands.buffer]
  unfold processInput EventLoop.processInput
  rw [read]
  split
  · cases t.buffer[(res.toInt - 1).toNat]? with
    | none => exact stands.withPc .fault
    | some last =>
      dsimp only
      split
      · exact ⟨rfl, stands.uring, stands.sq, stands.cq, stands.budget,
          congrArg (List.set · (res.toInt - 1).toNat 0) stands.buffer, stands.inflight,
          stands.cancelNext, stands.sizes⟩
      · exact stands.withPc (.prompt cqe)
  · exact stands.withPc .exited

include layout cqSized stands in
/-- The completion is read where the ring holds it. -/
theorem loads_stand (inv : t.comp.Inv bits)
    (slotted : cqe = slot t.comp.cq.cqMask t.comp.retired) :
    userData m s.mem cqe = some (t.comp.cq.cqes cqe).userData ∧
      res m s.mem cqe = some (t.comp.cq.cqes cqe).res := by
  have within : cqe < cqEntries := by
    rw [cqSized, ← inv.sized.entries_eq, slotted]
    exact UInt32.lt_iff_toNat_lt.mpr (inv.sized.masked_lt _)
  have inside := cqes_inside layout stands.sizes within
  have entry : t.comp.cq.cqes cqe =
      IoUringCqe.decode (s.mem.ring.view (m.cqeAt cqe).offset 16) := by
    rw [← stands.cq]
    exact congrArg IoUringCqe.decode (if_pos within)
  constructor
  · rw [userData, Memory.load_eq (by omega), entry, IoUringCqe.decode, number_view]
    rfl
  · rw [res, Memory.load_eq (by omega), entry, IoUringCqe.decode, number_view]
    rfl

include layout sixteen cqSized stands in
theorem handle_stands (stocked : Stocked g t.sub queued) (room : queued.length ≤ 5)
    (inv : t.comp.Inv bits) (slotted : cqe = slot t.comp.cq.cqMask t.comp.retired) :
    Stands m sqEntries cqEntries (handle m g s cqe) (EventLoop.handle g t cqe) := by
  obtain ⟨data, res⟩ := loads_stand layout cqSized stands inv slotted
  simp only [handle, data, State.onRes, res, EventLoop.handle]
  split
  · exact processInput_stands stands cqe _
  · split
    · obtain ⟨s', sub, ran, listening, stands'⟩ :=
        submitSigListen_stands layout sixteen stands stocked room
      rw [ran, listening]
      exact ⟨rfl, stands'.uring, stands'.sq, stands'.cq, stands'.budget, stands'.buffer,
        stands'.inflight, stands'.cancelNext, stands'.sizes⟩
    · split
      · split
        · exact stands.withPc .exited
        · exact stands.withPc .advance
      · exact stands.withPc .advance

include layout sixteen stands in
theorem enter_stands (inv : Submission.Inv 4 t.sub) :
    Stands m sqEntries cqEntries (enter m s)
      { t with pc := .entering, sub := Submission.wait t.sub 1 } := by
  obtain ⟨mem, ran, only⟩ :=
    uringWait_eq layout (sq_sized sixteen stands inv) stands.sizes rfl s.uring 1
  simp only [enter, ran, Submission.wait]
  rw [← stands.sq, ← stands.uring, uringWait_decoded]
  refine ⟨rfl, rfl, ?_, ?_, rfl, stands.buffer, stands.inflight, stands.cancelNext, only.sizes⟩
  · exact congrArg (decodedSq sqEntries) only.sq
  · exact (congrArg decodedCq only.cq).trans stands.cq

include layout stands in
theorem result_stands :
    Stands m sqEntries cqEntries (result m s)
      (match Uring.uringResult t.comp.cq with
        | none => { t with pc := .wait }
        | some cqe => { t with pc := .handle cqe }) := by
  have ran := uringResult_eq layout stands.sizes
  have same : Uring.uringResult t.comp.cq = Uring.uringResult (cqRing m cqEntries s.mem) := by
    rw [← stands.cq]
    rfl
  rw [same]
  simp only [result, ran]
  cases Uring.uringResult (cqRing m cqEntries s.mem) with
  | none => exact stands.withPc .wait
  | some cqe => exact stands.withPc (.handle cqe)

include layout stands in
theorem advance_stands :
    Stands m sqEntries cqEntries (advance m s)
      { t with pc := .wait, comp := t.comp.advance } := by
  have head := load_field layout stands.sizes (o := .cqHead) rfl
  change load32 s.mem.ring m.cqHead.toNat = some (cqRing m cqEntries s.mem).cqHead at head
  obtain ⟨ring, stored, only⟩ :=
    advance_eq layout stands.sizes (cqRing m cqEntries s.mem).cqHead
  simp only [advance, head, Option.bind_some, stored]
  refine ⟨rfl, stands.uring, ?_, ?_, stands.budget, stands.buffer, stands.inflight,
    stands.cancelNext, only.sizes⟩
  · exact (congrArg (decodedSq sqEntries) only.sq).trans stands.sq
  · change _ = uringAdvance t.comp.cq
    rw [← stands.cq]
    exact congrArg decodedCq only.cq

include layout sixteen stands in
theorem consume_stands (inv : Submission.Inv 4 t.sub) :
    Option.Rel (Stands m sqEntries cqEntries) (consume m s) (EventLoop.step g t .consume) := by
  have head := load_field layout stands.sizes (o := .sqHead) rfl
  have tail := load_field layout stands.sizes (o := .sqTail) rfl
  change load32 s.mem.ring m.sqHead.toNat = some (sqRing m sqEntries s.mem).sqHead at head
  change load32 s.mem.ring m.sqTail.toNat = some (sqRing m sqEntries s.mem).sqTail at tail
  have sameHead : t.sub.sq.sqHead = (sqRing m sqEntries s.mem).sqHead := by
    rw [← stands.sq]
    rfl
  have sameTail : t.sub.sq.sqTail = (sqRing m sqEntries s.mem).sqTail := by
    rw [← stands.sq]
    rfl
  simp only [consume, head, tail, Option.bind_eq_bind, Option.bind_some, EventLoop.step,
    ← stands.pc, ← stands.budget, sameHead, sameTail]
  by_cases allowed : s.pc = .entering ∧ 0 < s.budget ∧
      (sqRing m sqEntries s.mem).sqHead ≠ (sqRing m sqEntries s.mem).sqTail
  · rw [if_pos allowed, if_pos allowed]
    have behind : t.sub.sq.sqHead ≠ t.sub.sq.sqTail := by
      rw [sameHead, sameTail]
      exact allowed.2.2
    have index := consumed_index inv behind
    rw [inv.sized.entries_eq, ← sixteen, ← stands.sq] at index
    obtain ⟨mem, ran, only⟩ :=
      consumeEntry_eq layout (sq_sized sixteen stands inv) stands.sizes rfl index
    have entry : (Submission.consumeEntry t.sub.sq).1 =
        IoUringSqe.decode (Submission.consumeEntry (sqRing m sqEntries s.mem)).1 := by
      rw [← stands.sq]
      exact if_pos index
    simp only [ran, Option.bind_some]
    refine .some ⟨stands.pc, stands.uring, ?_, ?_, ?_, stands.buffer, ?_, rfl, only.sizes⟩
    · change _ = (Submission.consumeEntry t.sub.sq).2
      rw [← stands.sq]
      exact congrArg (decodedSq sqEntries) only.sq
    · exact (congrArg decodedCq only.cq).trans stands.cq
    · exact congrArg (· - 1) stands.budget
    · simp only [EventLoop.consume, entry, stands.inflight, stands.cancelNext]
  · rw [if_neg allowed, if_neg allowed]
    exact .none

include layout cqSized stands in
theorem complete_stands (inv : t.comp.Inv bits) (i : Nat) (op : EventLoop.Op) (res : Int32)
    (flags : UInt32) (data : List UInt8) :
    Option.Rel (Stands m sqEntries cqEntries) (complete m g s i op res flags data)
      (some (EventLoop.complete g t i op res flags data)) := by
  have sized : Sized cqEntries (cqRing m cqEntries s.mem).cqMask bits := by
    have sized := inv.sized
    rw [← stands.cq] at sized
    rw [cqSized, ← sized.entries_eq]
    exact sized
  obtain ⟨mem, ran, only⟩ :=
    post_eq layout stands.sizes sized (IoUringCqe.encode ⟨op.sqe.userData, res, flags⟩)
  simp only [complete, ran, Option.bind_eq_bind, Option.bind_some]
  refine .some ⟨stands.pc, stands.uring, ?_, ?_, stands.budget, ?_, ?_, ?_, only.sizes⟩
  · exact (congrArg (decodedSq sqEntries) only.sq).trans stands.sq
  · change _ = (t.comp.post _).cq
    rw [only.cq, decodedCq_update, decode_encode, Completion.Queue.post, ← stands.cq]
    rfl
  · simp only [EventLoop.complete, stands.buffer]
  · simp only [EventLoop.complete, stands.inflight]
  · simp only [EventLoop.complete, stands.inflight, stands.cancelNext]

include layout sixteen cqSized stands in
/-- The two loops take a step together or refuse it together. -/
theorem step_stands (tracks : EventLoop.Tracks g bits t tokens) (a : EventLoop.Action) :
    Option.Rel (Stands m sqEntries cqEntries) (step m g s a) (EventLoop.step g t a) := by
  have represents := tracks.1
  have few := tracks.2.queued
  have samePc := stands.pc
  cases a with
  | init signalfdOk socketOk =>
    simp only [step, EventLoop.step, samePc]
    split
    · exact .some (init_stands layout sixteen stands represents.sub few signalfdOk socketOk)
    · exact .none
  | enter =>
    simp only [step, EventLoop.step, samePc]
    split
    · exact .some (enter_stands layout sixteen stands represents.sub.inv)
    · exact .none
  | enterReturn res =>
    simp only [step, EventLoop.step, samePc]
    split
    · apply Option.Rel.some
      split
      · exact stands.withPc .exited
      · exact stands.withPc .result
    · exact .none
  | result =>
    have polled := result_stands layout stands
    simp only [step, EventLoop.step, samePc]
    split
    · cases found : Uring.uringResult t.comp.cq with
      | none =>
        rw [found] at polled
        exact .some polled
      | some cqe =>
        rw [found] at polled
        exact .some polled
    · exact .none
  | handle =>
    simp only [step, EventLoop.step, samePc]
    cases pc : t.pc with
    | handle cqe =>
      exact .some (handle_stands layout sixteen cqSized stands represents.sub (by omega)
        represents.comp.inv (represents.pointer cqe pc))
    | _ => exact .none
  | command buffer returns =>
    simp only [step, EventLoop.step, samePc, stands.buffer]
    cases pc : t.pc with
    | command cqe =>
      dsimp only
      split
      · exact .some ⟨rfl, stands.uring, stands.sq, stands.cq, stands.budget, rfl, stands.inflight,
          stands.cancelNext, stands.sizes⟩
      · exact .none
    | _ => exact .none
  | prompt =>
    obtain ⟨s', sub, ran, created, -, stands'⟩ :=
      createConsolePrompt_stands layout sixteen stands represents.sub few
    simp only [step, EventLoop.step, samePc, ran, created]
    cases pc : t.pc with
    | prompt cqe =>
      exact .some ⟨rfl, stands'.uring, stands'.sq, stands'.cq, stands'.budget, stands'.buffer,
        stands'.inflight, stands'.cancelNext, stands'.sizes⟩
    | _ => exact .none
  | advance =>
    simp only [step, EventLoop.step, samePc]
    split
    · exact .some (advance_stands layout stands)
    · exact .none
  | consume => exact consume_stands layout sixteen stands represents.sub.inv
  | complete i res flags data =>
    simp only [step, EventLoop.step, stands.inflight]
    cases t.inflight[i]? with
    | none => exact .none
    | some op =>
      dsimp only
      split
      · exact complete_stands layout cqSized stands represents.comp.inv i op res flags data
      · exact .none

end Steps
/-- `uring_init(16)` has returned, and nothing else has been done. -/
def State.start (mem : Mappings) : State where
  pc := .start
  uring := ⟨0, 0⟩
  mem := mem
  budget := 0
  buffer := List.replicate 1024 0
  inflight := []
  cancelNext := false

section Runs
variable {p : IoUringParams} {mem : Mappings} {g : Globals}

theorem start_stands (setup : Setup p mem) (sixteen : p.sqEntries = UInt32.ofNat (2 ^ 4))
    (cqSized : p.cqEntries = UInt32.ofNat (2 ^ bits))
    (fresh : ∀ a < mem.sqes.size, mem.sqes.byte a = 0) :
    Stands (uringInit p) p.sqEntries p.cqEntries (State.start mem)
      (EventLoop.start bits (sqRing (uringInit p) p.sqEntries mem).sqArray
        (decodedCq (cqRing (uringInit p) p.cqEntries mem)).cqes) := by
  refine ⟨rfl, rfl, ?_, ?_, rfl, rfl, rfl, rfl, setup.sizes⟩
  · have zeroed : ∀ i < p.sqEntries, IoUringSqe.decode (entryAt mem.sqes i) = IoUringSqe.zero := by
      intro i within
      have inside := sqes_inside setup.layout setup.sizes within
      have bytes : entryAt mem.sqes i = fun _ => 0 := by
        funext j
        have below := j.isLt
        exact fresh _ (by omega)
      rw [bytes, decode_fresh]
    simp +contextual only [decodedSq, sqRing, EventLoop.start, Submission.start, State.start,
      setup.sqHead, setup.sqTail, setup.sqMask, setup.sqEntries, ← sixteen, SqRing.mk.injEq,
      true_and]
    funext i
    split
    · exact zeroed i ‹_›
    · rfl
  · simp only [decodedCq, cqRing, EventLoop.start, Completion.Queue.start, State.start,
      setup.cqHead, setup.cqTail, setup.cqMask, setup.cqEntries, ← cqSized]

/-- Every run on the bytes is a run of the loop on the rings, step for step and refusal
for refusal, with commands and children that leave the mappings alone. Under that
condition the kernel only ever reads the three requests out of the entries, whole, and no
store goes through NULL or leaves its mapping. -/
theorem mapped_loop_refined (setup : Setup p mem) (sixteen : p.sqEntries = 16)
    (large : 3 ≤ p.cqEntries.toNat) (fresh : ∀ a < mem.sqes.size, mem.sqes.byte a = 0)
    (acts : List EventLoop.Action) :
    ∃ bits, p.cqEntries = UInt32.ofNat (2 ^ bits) ∧
      Option.Rel (Stands (uringInit p) p.sqEntries p.cqEntries)
        (Transition.run (step (uringInit p) g) (State.start mem) acts)
        (Transition.run (EventLoop.step g)
          (EventLoop.start bits (sqRing (uringInit p) p.sqEntries mem).sqArray
            (decodedCq (cqRing (uringInit p) p.cqEntries mem)).cqes) acts) ∧
      ∀ s, Transition.run (step (uringInit p) g) (State.start mem) acts = some s →
        s.pc ≠ .fault ∧
        ∀ op ∈ s.inflight, op.sqe = EventLoop.promptWrite g ∨ op.sqe = EventLoop.consoleRead g ∨
          op.sqe = EventLoop.signalRead g := by
  obtain ⟨bits, small, cqSized⟩ := setup.valid.cq_entries
  have room : 3 ≤ 2 ^ bits := by
    have power : 2 ^ bits ≤ 2 ^ 16 := Nat.pow_le_pow_right (by decide) small
    rwa [cqSized, UInt32.toNat_ofNat', Nat.mod_eq_of_lt (by omega)] at large
  have lockstep := Transition.run_lockstep (P := fun t => ∃ tokens, EventLoop.Tracks g bits t tokens)
    (R := Stands (uringInit p) p.sqEntries p.cqEntries)
    (fun a stands ⟨_, tracks⟩ => step_stands setup.layout sixteen cqSized stands tracks a)
    (fun ⟨_, tracks⟩ stepped =>
      have ⟨_, tokens', _, tracks'⟩ := EventLoop.step_tracks room tracks stepped
      ⟨tokens', tracks'⟩)
    (start_stands setup sixteen cqSized fresh) ⟨_, EventLoop.start_tracks (by omega) _ _⟩ acts
  refine ⟨bits, cqSized, lockstep, ?_⟩
  intro s ran
  rw [ran] at lockstep
  cases abstract : Transition.run (EventLoop.step g)
      (EventLoop.start bits (sqRing (uringInit p) p.sqEntries mem).sqArray
        (decodedCq (cqRing (uringInit p) p.cqEntries mem)).cqes) acts with
  | none =>
    rw [abstract] at lockstep
    cases lockstep
  | some t =>
    rw [abstract] at lockstep
    cases lockstep with
    | some stands =>
      obtain ⟨tokens, represents, -⟩ := EventLoop.run_tracks (by omega) room _ _ abstract
      constructor
      · intro fault
        have phase := represents.phase
        rw [← stands.pc, fault] at phase
        cases phase
      · intro op member
        have entry := List.mem_map_of_mem (f := EventLoop.Op.sqe) member
        rw [stands.inflight, represents.inflight, List.mem_map] at entry
        obtain ⟨k, -, template⟩ := entry
        rw [← template]
        cases k
        · exact .inl rfl
        · exact .inr (.inl rfl)
        · exact .inr (.inr rfl)

/-- Up to the first command: the prompt is written, then a line arrives. -/
theorem mapped_loop_refined_first_command :
    ∃ s : State, Transition.run (step (uringInit kernelParams) ⟨3, 100, 200, 300, by decide⟩)
        (State.start kernelMappings)
        [.init true true, .enter, .consume, .consume, .consume, .complete 0 9 0 [],
          .complete 0 2 0 [108, 10], .enterReturn 3, .result, .handle, .advance, .enter,
          .enterReturn 0, .result, .handle] = some s ∧
      s.pc = .command 1 ∧ s.buffer.take 2 = [108, 0] ∧
      ∀ op ∈ s.inflight, op.sqe = EventLoop.promptWrite ⟨3, 100, 200, 300, by decide⟩ ∨
        op.sqe = EventLoop.consoleRead ⟨3, 100, 200, 300, by decide⟩ ∨
        op.sqe = EventLoop.signalRead ⟨3, 100, 200, 300, by decide⟩ := by
  have counted : (Transition.run (step (uringInit kernelParams) ⟨3, 100, 200, 300, by decide⟩)
      (State.start kernelMappings)
      [.init true true, .enter, .consume, .consume, .consume, .complete 0 9 0 [],
        .complete 0 2 0 [108, 10], .enterReturn 3, .result, .handle, .advance, .enter,
        .enterReturn 0, .result, .handle]).map (fun s => (s.pc, s.buffer.take 2)) =
      some (.command 1, [108, 0]) := by decide +kernel
  obtain ⟨s, ran, seen⟩ := Option.map_eq_some_iff.mp counted
  obtain ⟨_, -, -, kept⟩ := mapped_loop_refined kernel_setup (by decide) (by decide)
    (fun a inside => by rfl) _
  exact ⟨s, ran, congrArg Prod.fst seen, congrArg Prod.snd seen, (kept s ran).2⟩

end Runs
end MinLinux.Init.Machine
