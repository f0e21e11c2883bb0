import Mathlib.Data.List.Forall2
import MinLinux.Init.EventLoop
import MinLinux.Init.Tokens

/-! The event loop refines the circulation of tokens. Each ring entry, operation
in flight and completion stands for one kind of request, and its fields are those
of that kind's template whatever the recycled entry held before. -/
namespace MinLinux.Init
open Uring

/-- The fields no request assigns are still as the kernel mapped them. -/
structure IoUringSqe.Clean (sqe : IoUringSqe) : Prop where
  off : sqe.off = 0
  rwFlags : sqe.rwFlags = 0
  bufIndex : sqe.bufIndex = 0
  personality : sqe.personality = 0
  spliceFdIn : sqe.spliceFdIn = 0
  pad2 : sqe.pad2 = (0, 0)

namespace Kind

def write (g : Globals) : Kind → IoUringSqe → IoUringSqe
  | .prompt => writePrompt g
  | .console => writeConsole g
  | .signal => writeSignal g

/-- A request of this kind with every other field zero. -/
def template (g : Globals) (k : Kind) : IoUringSqe := k.write g IoUringSqe.zero

theorem template_clean (g : Globals) (k : Kind) : (k.template g).Clean := by
  cases k <;> exact ⟨rfl, rfl, rfl, rfl, rfl, rfl⟩

/-- All three writers assign the same fields, so no residue survives in them. -/
theorem write_clean (g : Globals) (k : Kind) {sqe : IoUringSqe} (clean : sqe.Clean) :
    k.write g sqe = k.template g := by
  obtain ⟨off, rwFlags, bufIndex, personality, spliceFdIn, pad2⟩ := clean
  cases k <;>
    simp only [write, template, writePrompt, writeConsole, writeSignal, IoUringSqe.zero,
      off, rwFlags, bufIndex, personality, spliceFdIn, pad2]

theorem linked_template (g : Globals) (k : Kind) :
    EventLoop.linked (k.template g) = decide (k = .prompt) := by
  cases k
  · exact (by decide : (IOSQE_IO_LINK &&& IOSQE_IO_LINK != 0) = true)
  · exact (by decide : ((0 : UInt8) &&& IOSQE_IO_LINK != 0) = false)
  · exact (by decide : ((0 : UInt8) &&& IOSQE_IO_LINK != 0) = false)

theorem template_len (g : Globals) (k : Kind) : (k.template g).len.toNat ≤ 1024 := by
  cases k
  · exact (by decide : promptLength.toNat ≤ 1024)
  · exact (by decide : bufferSize.toNat ≤ 1024)
  · exact (by decide : siginfoSize.toNat ≤ 1024)

end Kind

/-- The submission side holds exactly the queued requests. -/
structure Stocked (g : Globals) (sub : Submission.State IoUringSqe) (queued : List Kind) :
    Prop where
  inv : Submission.Inv 4 sub
  queued : sub.accepted.drop sub.consumed.length = queued.map fun k => some (k.template g)
  clean : ∀ i, (sub.sq.sqes i).Clean

namespace Stocked
variable {g : Globals} {sub : Submission.State IoUringSqe} {queued : List Kind}

theorem pending (stocked : Stocked g sub queued) : sub.fifo.pending = queued.length := by
  have length := congrArg List.length stocked.queued
  rwa [List.length_drop, List.length_map] at length

theorem consumed_le (stocked : Stocked g sub queued) :
    sub.consumed.length ≤ sub.accepted.length :=
  Nat.le_trans stocked.inv.fifo.consumed_le stocked.inv.fifo.published_le

/-- With room in the ring a request is entered as its template, after the others. -/
theorem submit (stocked : Stocked g sub queued) (room : queued.length < 16) (k : Kind) :
    ∃ sub', Init.submit (k.write g) sub = some sub' ∧ Stocked g sub' (queued ++ [k]) ∧
      sub'.accepted = sub.accepted ++ [some (k.template g)] := by
  obtain ⟨sub', cell, submitted, spec⟩ :=
    submit_spec stocked.inv (by rw [stocked.pending]; exact room) (k.write g)
  have entry := k.write_clean g (stocked.clean cell)
  have accepted := spec.accepted
  rw [entry] at accepted
  refine ⟨sub', submitted, ⟨spec.inv, ?_, ?_⟩, accepted⟩
  · rw [accepted, spec.consumed, List.drop_append_of_le_length stocked.consumed_le,
      stocked.queued, List.map_append]
    rfl
  · intro i
    rw [spec.sqes, entry]
    by_cases same : i = cell
    · rw [same, Function.update_self]
      exact k.template_clean g
    · rw [Function.update_of_ne same]
      exact stocked.clean i

theorem submitSigListen (stocked : Stocked g sub queued) (room : queued.length ≤ 3) :
    ∃ sub', Init.submitSigListen g sub = some sub' ∧ Stocked g sub' (queued ++ [.signal]) ∧
      EventLoop.newEntries sub sub' = [Kind.signal.template g] ∧
      sub'.accepted = sub.accepted ++ [some (Kind.signal.template g)] := by
  obtain ⟨sub', submitted, stocked', accepted⟩ := stocked.submit (by omega) .signal
  refine ⟨sub', submitted, stocked', ?_, accepted⟩
  rw [EventLoop.newEntries, accepted, List.drop_left]
  rfl

theorem createConsolePrompt (stocked : Stocked g sub queued) (room : queued.length ≤ 3) :
    ∃ sub', Init.createConsolePrompt g sub = some sub' ∧
      Stocked g sub' (queued ++ [.prompt, .console]) ∧
      EventLoop.newEntries sub sub' = [Kind.prompt.template g, Kind.console.template g] ∧
      sub'.accepted = sub.accepted ++
        [some (Kind.prompt.template g), some (Kind.console.template g)] := by
  obtain ⟨sub₁, first, stocked₁, accepted₁⟩ := stocked.submit (by omega) .prompt
  obtain ⟨sub₂, second, stocked₂, accepted₂⟩ := stocked₁.submit
    (by rw [List.length_append, List.length_singleton]; omega) .console
  have accepted : sub₂.accepted = sub.accepted ++
      [some (Kind.prompt.template g), some (Kind.console.template g)] := by
    rw [accepted₂, accepted₁, List.append_assoc]
    rfl
  refine ⟨sub₂, ?_, ?_, ?_, accepted⟩
  · exact (congrArg (Option.bind · _) first).trans second
  · rwa [List.append_assoc] at stocked₂
  · rw [EventLoop.newEntries, accepted, List.drop_left]
    rfl

theorem filled (stocked : Stocked g sub queued) : sub.accepted.all Option.isSome = true := by
  have delivered : sub.consumed.map some = sub.accepted.take sub.consumed.length :=
    stocked.inv.fifo.delivered
  rw [← List.take_append_drop sub.consumed.length sub.accepted, List.all_append,
    ← delivered, stocked.queued]
  simp

theorem wait (stocked : Stocked g sub queued) (count : UInt32) :
    Stocked g (Submission.wait sub count) queued := by
  have inv := Submission.wait_inv stocked.inv stocked.filled count
  refine ⟨inv, stocked.queued, ?_⟩
  intro i
  simp only [Submission.wait, stocked.inv.uringWait_eq]
  exact stocked.clean i

/-- The kernel reads the oldest queued request. -/
theorem consume (stocked : Stocked g sub queued) (behind : sub.sq.sqHead ≠ sub.sq.sqTail) :
    ∃ k rest, queued = k :: rest ∧ (Submission.consumeEntry sub.sq).1 = k.template g ∧
      Stocked g (Submission.consume sub) rest := by
  obtain ⟨-, front⟩ := Submission.consume_front stocked.inv behind
  have head := congrArg List.head? stocked.queued
  rw [List.head?_drop, front] at head
  cases queued with
  | nil => simp at head
  | cons k rest =>
    refine ⟨k, rest, rfl, by simpa using head, Submission.consume_inv stocked.inv behind, ?_,
      stocked.clean⟩
    have later := congrArg List.tail stocked.queued
    simpa [Submission.consume, List.tail_drop] using later

end Stocked

/-- A completion of a request of kind `k`: no transfer exceeds the requested length. -/
def Completes (g : Globals) (cqe : IoUringCqe) (k : Kind) : Prop :=
  cqe.userData = (k.template g).userData ∧ cqe.res.toInt ≤ (k.template g).len.toNat

/-- The completion side holds exactly the requests done and not retired. -/
structure Delivering (g : Globals) (bits : Nat) (comp : Completion.Queue IoUringCqe)
    (completed : List IoUringSqe) (done : List Kind) : Prop where
  inv : comp.Inv bits
  length : completed.length = comp.posted.length
  unretired : completed.drop comp.retired = done.map fun k => k.template g
  entries : List.Forall₂ (Completes g) comp.unretired done

namespace Delivering
variable {g : Globals} {bits : Nat} {comp : Completion.Queue IoUringCqe}
  {completed : List IoUringSqe} {done : List Kind}

theorem unretired_length (delivering : Delivering g bits comp completed done) :
    comp.unretired.length = done.length := delivering.entries.length_eq

theorem post (delivering : Delivering g bits comp completed done)
    (room : done.length < 2 ^ bits) (completes : Completes g cqe k) :
    Delivering g bits (comp.post cqe) (completed ++ [k.template g]) (done ++ [k]) := by
  refine ⟨delivering.inv.post (by rwa [delivering.unretired_length]) cqe, ?_, ?_, ?_⟩
  · simp only [Completion.Queue.post, List.length_append, List.length_singleton,
      delivering.length]
  · have retired_le : comp.retired ≤ completed.length := by
      rw [delivering.length]
      exact delivering.inv.retired_le
    rw [List.map_append, ← delivering.unretired]
    exact List.drop_append_of_le_length retired_le
  · rw [delivering.inv.unretired_post]
    exact List.rel_append delivering.entries (.cons completes .nil)

theorem advance (delivering : Delivering g bits comp completed (k :: done)) :
    Delivering g bits comp.advance completed done := by
  obtain ⟨inv, length, retired, entries⟩ := delivering
  cases unretired : comp.unretired with
  | nil =>
    rw [unretired] at entries
    cases entries
  | cons cqe rest =>
    rw [unretired] at entries
    cases entries with
    | cons first later =>
      refine ⟨inv.advance (by rw [unretired]; exact List.cons_ne_nil _ _), length, ?_, ?_⟩
      · have following := congrArg List.tail retired
        simpa [Completion.Queue.advance, List.tail_drop] using following
      · rw [Completion.Queue.unretired_advance unretired]
        exact later

/-- `uring_result` answers NULL exactly when nothing is done, and otherwise points
at the completion of the first request done. -/
theorem uringResult_eq (delivering : Delivering g bits comp completed done) :
    uringResult comp.cq =
      if done = [] then none else some (Ring.slot comp.cq.cqMask comp.retired) := by
  have same : comp.unretired = [] ↔ done = [] := by
    rw [← List.length_eq_zero_iff, delivering.unretired_length, List.length_eq_zero_iff]
  rw [delivering.inv.uringResult_eq]
  simp only [same]

theorem front (delivering : Delivering g bits comp completed (k :: done)) :
    Completes g (comp.cq.cqes (Ring.slot comp.cq.cqMask comp.retired)) k := by
  obtain ⟨inv, -, -, entries⟩ := delivering
  cases unretired : comp.unretired with
  | nil =>
    rw [unretired] at entries
    cases entries
  | cons cqe rest =>
    rw [unretired] at entries
    cases entries with
    | cons first later =>
      rw [inv.front unretired]
      exact first

end Delivering
end MinLinux.Init
