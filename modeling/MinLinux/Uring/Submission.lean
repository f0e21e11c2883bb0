import MinLinux.Ring.Fifo
import MinLinux.Uring.Queue

/-! The submission side under every interleaving of its caller and the kernel. The
caller reserves entries and writes them through the pointers it holds; the kernel
consumes published entries one at a time, at any moment after `io_uring_enter`
gave it leave, and may stop early. The machine refines the bounded queue. -/
namespace MinLinux.Uring.Submission
open MinLinux.Ring

/-- Rings and private counters, with ghost histories. `held` are the pointers
handed out since the last `uring_wait`, `budget` what the last `io_uring_enter`
still allows the kernel to consume. -/
structure State (α : Type) where
  uring : UringQueue
  sq : SqRing α
  held : List UInt32
  budget : Nat
  accepted : List (Option α)
  consumed : List α

inductive Action (α : Type) where
  | newSubmission
  | fill (index : Nat) (value : α)
  | wait (count : UInt32)
  | consume

variable {α : Type}

def State.published (s : State α) : Nat := s.accepted.length - s.held.length

/-- The queue the rings stand for. -/
def State.fifo (s : State α) : Fifo α := ⟨s.accepted, s.published, s.consumed⟩

def Action.op : Action α → Fifo.Op α
  | .newSubmission => .offer
  | .fill i v => .fill i v
  | .wait _ => .publish
  | .consume => .take

/-- The kernel reads one entry through the index array. -/
def consumeEntry (sq : SqRing α) : α × SqRing α :=
  (sq.sqes (sq.sqArray (sq.sqHead &&& sq.sqMask)), { sq with sqHead := sq.sqHead + 1 })

def newSubmission (s : State α) : State α :=
  match uringNewSubmission s.uring s.sq with
  | (some sqe, uring) =>
      { s with uring := uring, held := s.held ++ [sqe], accepted := s.accepted ++ [none] }
  | (none, uring) => { s with uring := uring }

/-- The caller stores an entry through the pointer `sqe` it holds at position `i`. -/
def fill (s : State α) (i : Nat) (sqe : UInt32) (v : α) : State α :=
  { s with
    sq := { s.sq with sqes := Function.update s.sq.sqes sqe v }
    accepted := s.accepted.set (s.published + i) (some v) }

def wait (s : State α) (count : UInt32) : State α :=
  let (enter, uring, sq) := uringWait s.uring s.sq count
  { s with uring := uring, sq := sq, held := [], budget := enter.toSubmit.toNat }

def consume (s : State α) : State α :=
  let (entry, sq) := consumeEntry s.sq
  { s with sq := sq, budget := s.budget - 1, consumed := s.consumed ++ [entry] }

/-- Every pointer is filled in before `uring_wait`, and the kernel never passes
the published tail. -/
def step (s : State α) : Action α → Option (State α)
  | .newSubmission => some (newSubmission s)
  | .fill i v => (s.held[i]?).map fun sqe => fill s i sqe v
  | .wait count => if s.accepted.all Option.isSome then some (wait s count) else none
  | .consume => if 0 < s.budget ∧ s.sq.sqHead ≠ s.sq.sqTail then some (consume s) else none

/-- Fresh rings of `2 ^ bits` entries, with any initial array and entry contents. -/
def start (bits : Nat) (sqArray : UInt32 → UInt32) (sqes : UInt32 → α) : State α where
  uring := ⟨0, 0⟩
  sq := ⟨0, 0, UInt32.ofNat (2 ^ bits) - 1, UInt32.ofNat (2 ^ bits), sqArray, sqes⟩
  held := []
  budget := 0
  accepted := []
  consumed := []

/-- An entry cell agrees with what was last written through its pointer. -/
def Written (v : α) (entry : Option α) : Prop := ∀ w, entry = some w → v = w

/-- The four counters and the index array, tied to the histories. -/
structure Inv (bits : Nat) (s : State α) : Prop where
  sized : Sized s.sq.sqEntries s.sq.sqMask bits
  sqHead : s.sq.sqHead = UInt32.ofNat s.consumed.length
  sqTail : s.sq.sqTail = UInt32.ofNat s.published
  sqListHead : s.uring.sqListHead = UInt32.ofNat s.published
  sqListTail : s.uring.sqListTail = UInt32.ofNat s.accepted.length
  held_le : s.held.length ≤ s.accepted.length
  held : ∀ i, (h : i < s.held.length) → s.held[i] = slot s.sq.sqMask (s.published + i)
  sqArray : ∀ j, s.consumed.length ≤ j → j < s.published →
    s.sq.sqArray (slot s.sq.sqMask j) = slot s.sq.sqMask j
  sqes : Window Written s.sq.sqMask s.sq.sqes s.consumed.length
    (s.accepted.drop s.consumed.length)
  fifo : Fifo.Valid (2 ^ bits) s.fifo

theorem start_inv (small : bits ≤ 31) (sqArray : UInt32 → UInt32) (sqes : UInt32 → α) :
    Inv bits (start bits sqArray sqes) where
  sized := ⟨small, rfl, rfl⟩
  sqHead := rfl
  sqTail := rfl
  sqListHead := rfl
  sqListTail := rfl
  held_le := Nat.le_refl _
  held := fun _ h => absurd h (Nat.not_lt_zero _)
  sqArray := fun _ _ h => absurd h (Nat.not_lt_zero _)
  sqes := Window.nil
  fifo := Fifo.empty_valid

section Flush
variable {entries mask : UInt32} {array : UInt32 → UInt32}

theorem flush_counters (mask : UInt32) (n p : Nat) (array : UInt32 → UInt32) :
    (flush mask n ⟨UInt32.ofNat p, UInt32.ofNat p, array⟩).sqTail = UInt32.ofNat (p + n) ∧
    (flush mask n ⟨UInt32.ofNat p, UInt32.ofNat p, array⟩).sqListHead = UInt32.ofNat (p + n) := by
  induction n generalizing p array with
  | zero => exact ⟨rfl, rfl⟩
  | succ n ih =>
    have next := ih (p + 1) (Function.update array (UInt32.ofNat p &&& mask) (UInt32.ofNat p &&& mask))
    rw [UInt32.ofNat_add p 1, show p + 1 + n = p + (n + 1) by omega] at next
    exact next

/-- Publishing extends the run of indices that name their own entry, without
touching the indices the kernel has not consumed. -/
theorem flush_array (sized : Sized entries mask bits) (ordered : first ≤ p)
    (fits : p + n ≤ first + 2 ^ bits)
    (before : ∀ j, first ≤ j → j < p → array (slot mask j) = slot mask j) :
    ∀ j, first ≤ j → j < p + n →
      (flush mask n ⟨UInt32.ofNat p, UInt32.ofNat p, array⟩).sqArray (slot mask j) =
        slot mask j := by
  induction n generalizing p array with
  | zero => exact before
  | succ n ih =>
    have extended : ∀ j, first ≤ j → j < p + 1 →
        Function.update array (slot mask p) (slot mask p) (slot mask j) = slot mask j := by
      intro j low high
      by_cases last : j = p
      · rw [last, Function.update_self]
      · rw [Function.update_of_ne (sized.slot_ne (by omega) (by omega))]
        exact before j low (by omega)
    have next := ih (by omega) (by omega) extended
    rw [UInt32.ofNat_add p 1, show p + 1 + n = p + (n + 1) by omega] at next
    exact next

end Flush

namespace Inv
variable {s : State α} {bits : Nat}

theorem pending_near (inv : Inv bits s) : s.accepted.length - s.consumed.length < 2 ^ 32 := by
  have bounded : s.accepted.length ≤ s.consumed.length + 2 ^ bits := inv.fifo.bounded
  have := inv.sized.pow_lt
  omega

theorem published_add_held (inv : Inv bits s) : s.published + s.held.length = s.accepted.length := by
  have := inv.held_le
  simp only [State.published]
  omega

/-- A full ring is refused, any other ring hands out the next cell. -/
theorem newSubmission_eq (inv : Inv bits s) :
    uringNewSubmission s.uring s.sq = if s.fifo.pending < 2 ^ bits then
      (some (slot s.sq.sqMask s.accepted.length),
        { s.uring with sqListTail := UInt32.ofNat (s.accepted.length + 1) })
    else (none, s.uring) := by
  have ordered : s.consumed.length ≤ s.accepted.length :=
    Nat.le_trans inv.fifo.consumed_le inv.fifo.published_le
  have bounded : s.accepted.length ≤ s.consumed.length + 2 ^ bits := inv.fifo.bounded
  have small : 2 ^ bits ≤ 2 ^ 31 := Nat.pow_le_pow_right (by omega) inv.sized.small
  have gap : (UInt32.ofNat (s.accepted.length + 1) - UInt32.ofNat s.consumed.length).toNat =
      s.accepted.length + 1 - s.consumed.length := counter_sub (by omega) (by omega)
  have room : UInt32.ofNat (s.accepted.length + 1) - UInt32.ofNat s.consumed.length ≤ s.sq.sqEntries ↔
      s.fifo.pending < 2 ^ bits := by
    rw [UInt32.le_iff_toNat_le, gap, inv.sized.entries_toNat]
    simp only [Fifo.pending, State.fifo]
    omega
  have next : s.uring.sqListTail + 1 = UInt32.ofNat (s.accepted.length + 1) := by
    rw [inv.sqListTail, UInt32.ofNat_add]
    rfl
  simp only [uringNewSubmission, next, inv.sqHead, room]
  rw [inv.sqListTail]
  rfl

theorem newSubmission_accepts (inv : Inv bits s) (room : s.fifo.pending < 2 ^ bits) :
    newSubmission s = { s with
      uring := { s.uring with sqListTail := UInt32.ofNat (s.accepted.length + 1) }
      held := s.held ++ [slot s.sq.sqMask s.accepted.length]
      accepted := s.accepted ++ [none] } := by
  rw [newSubmission, inv.newSubmission_eq, if_pos room]

theorem newSubmission_refuses (inv : Inv bits s) (full : ¬ s.fifo.pending < 2 ^ bits) :
    newSubmission s = s := by
  rw [newSubmission, inv.newSubmission_eq, if_neg full]

/-- `uring_wait` publishes all that was reserved and asks for all of it. -/
theorem uringWait_eq (inv : Inv bits s) (count : UInt32) :
    uringWait s.uring s.sq count =
      (⟨UInt32.ofNat s.accepted.length - UInt32.ofNat s.consumed.length, count⟩,
        ⟨UInt32.ofNat s.accepted.length, UInt32.ofNat s.accepted.length⟩,
        { s.sq with
          sqTail := UInt32.ofNat s.accepted.length
          sqArray := (flush s.sq.sqMask s.held.length
            ⟨UInt32.ofNat s.published, UInt32.ofNat s.published, s.sq.sqArray⟩).sqArray }) := by
  have split := inv.published_add_held
  have reserved : (s.uring.sqListTail - s.uring.sqListHead).toNat = s.held.length := by
    have near := inv.pending_near
    have consumed_le : s.consumed.length ≤ s.published := inv.fifo.consumed_le
    rw [inv.sqListTail, inv.sqListHead, counter_sub (by omega) (by omega)]
    omega
  simp only [uringWait, UInt32.lt_iff_toNat_lt, reserved]
  split
  · rw [inv.sqTail, inv.sqListHead, inv.sqListTail, inv.sqHead,
      (flush_counters _ _ _ _).1, (flush_counters _ _ _ _).2, split]
  · rename_i empty
    have none : s.held.length = 0 := Nat.eq_zero_of_not_pos empty
    have all : s.accepted.length = s.published := by omega
    rw [none, flush, all, ← inv.sqTail, ← inv.sqHead]
    have equal : s.uring = ⟨s.sq.sqTail, s.sq.sqTail⟩ :=
      UringQueue.ext (inv.sqListHead.trans inv.sqTail.symm)
        (inv.sqListTail.trans (all ▸ inv.sqTail.symm))
    rw [equal]

theorem uringWait_toSubmit (inv : Inv bits s) (count : UInt32) :
    (uringWait s.uring s.sq count).1.toSubmit.toNat = s.accepted.length - s.consumed.length := by
  rw [inv.uringWait_eq]
  exact counter_sub (Nat.le_trans inv.fifo.consumed_le inv.fifo.published_le) inv.pending_near

end Inv

section Steps
variable {s t : State α} {bits : Nat}

theorem newSubmission_inv (inv : Inv bits s) : Inv bits (newSubmission s) := by
  by_cases room : s.fifo.pending < 2 ^ bits
  · have split := inv.published_add_held
    have ordered : s.consumed.length ≤ s.accepted.length :=
      Nat.le_trans inv.fifo.consumed_le inv.fifo.published_le
    rw [inv.newSubmission_accepts room]
    have published : (s.accepted ++ [none]).length -
        (s.held ++ [slot s.sq.sqMask s.accepted.length]).length = s.published := by
      simp only [List.length_append, List.length_singleton, State.published]
      omega
    constructor <;> simp only [State.published, State.fifo, published]
    · exact inv.sized
    · exact inv.sqHead
    · exact inv.sqTail
    · exact inv.sqListHead
    · rw [List.length_append, List.length_singleton]
    · simp only [List.length_append, List.length_singleton]
      omega
    · intro i h
      rw [List.length_append, List.length_singleton] at h
      by_cases old : i < s.held.length
      · rw [List.getElem_append_left old]
        exact inv.held i old
      · obtain rfl : i = s.held.length := by omega
        rw [← State.published, split]
        simp
    · exact inv.sqArray
    · rw [List.drop_append_of_le_length ordered]
      exact inv.sqes.extend fun _ impossible => absurd impossible (by simp)
    · have offered := Fifo.offer_valid inv.fifo
      rw [if_pos room] at offered
      exact offered
  · rw [inv.newSubmission_refuses room]
    exact inv

theorem fill_inv (inv : Inv bits s) (pointer : s.held[i]? = some sqe) (v : α) :
    Inv bits (fill s i sqe v) := by
  obtain ⟨within, same⟩ := List.getElem?_eq_some_iff.mp pointer
  have split := inv.published_add_held
  have consumed_le : s.consumed.length ≤ s.published := inv.fifo.consumed_le
  have bounded : s.accepted.length ≤ s.consumed.length + 2 ^ bits := inv.fifo.bounded
  have target : sqe = slot s.sq.sqMask (s.published + i) := same ▸ inv.held i within
  constructor <;> simp only [fill, State.published, State.fifo, List.length_set]
  · exact inv.sized
  · exact inv.sqHead
  · exact inv.sqTail
  · exact inv.sqListHead
  · exact inv.sqListTail
  · exact inv.held_le
  · exact inv.held
  · exact inv.sqArray
  · have written := inv.sqes.write (i := s.published + i - s.consumed.length)
      (v := v) (b := some v) inv.sized
      (by rw [List.length_drop]; omega) (by rw [List.length_drop]; omega)
      (fun _ equal => Option.some.inj equal)
    rw [List.set_drop,
      show s.consumed.length + (s.published + i - s.consumed.length) = s.published + i by omega,
      ← target] at written
    exact written
  · exact Fifo.fill_valid inv.fifo v

theorem wait_inv (inv : Inv bits s) (filled : s.accepted.all Option.isSome = true)
    (count : UInt32) : Inv bits (wait s count) := by
  have split := inv.published_add_held
  have consumed_le : s.consumed.length ≤ s.published := inv.fifo.consumed_le
  have bounded : s.accepted.length ≤ s.consumed.length + 2 ^ bits := inv.fifo.bounded
  simp only [wait, inv.uringWait_eq]
  constructor <;> simp only [State.published, State.fifo, List.length_nil, Nat.sub_zero]
  · exact inv.sized
  · exact inv.sqHead
  · exact Nat.zero_le _
  · intro i h
    exact absurd h (Nat.not_lt_zero _)
  · intro j low high
    exact flush_array inv.sized consumed_le (by omega) inv.sqArray j low (by omega)
  · exact inv.sqes
  · exact Fifo.publish_valid inv.fifo filled

/-- A consumer before the published tail reads exactly what was written. -/
theorem consume_front (inv : Inv bits s) (behind : s.sq.sqHead ≠ s.sq.sqTail) :
    s.consumed.length < s.published ∧
      s.accepted[s.consumed.length]? = some (some (consumeEntry s.sq).1) := by
  have ready : s.consumed.length < s.published := by
    have consumed_le : s.consumed.length ≤ s.published := inv.fifo.consumed_le
    refine Nat.lt_of_le_of_ne consumed_le fun equal => behind ?_
    rw [inv.sqHead, inv.sqTail, equal]
  refine ⟨ready, ?_⟩
  have index : s.sq.sqArray (s.sq.sqHead &&& s.sq.sqMask) = slot s.sq.sqMask s.consumed.length := by
    rw [inv.sqHead]
    exact inv.sqArray _ (Nat.le_refl _) ready
  have published_le : s.published ≤ s.accepted.length := inv.fifo.published_le
  have within : 0 < (s.accepted.drop s.consumed.length).length := by
    rw [List.length_drop]
    omega
  obtain ⟨w, entry⟩ := inv.fifo.written _ ready
  have stored : (s.accepted.drop s.consumed.length)[0] = some w := by
    have present : s.accepted[s.consumed.length]? = some (some w) := entry
    rw [List.getElem?_eq_getElem (by omega), Option.some.injEq] at present
    simpa using present
  have read : s.sq.sqes (slot s.sq.sqMask s.consumed.length) = w :=
    inv.sqes 0 within w stored
  rw [consumeEntry, index, read]
  exact entry

theorem consume_inv (inv : Inv bits s) (behind : s.sq.sqHead ≠ s.sq.sqTail) :
    Inv bits (consume s) := by
  obtain ⟨ready, front⟩ := consume_front inv behind
  have published_le : s.published ≤ s.accepted.length := inv.fifo.published_le
  constructor <;>
    simp only [consume, consumeEntry, State.published, State.fifo, List.length_append,
      List.length_singleton]
  · exact inv.sized
  · rw [inv.sqHead, UInt32.ofNat_add]
    rfl
  · exact inv.sqTail
  · exact inv.sqListHead
  · exact inv.sqListTail
  · exact inv.held_le
  · exact inv.held
  · intro j low high
    exact inv.sqArray j (by omega) high
  · have rest := inv.sqes.drop 1
    rw [List.drop_drop] at rest
    exact rest
  · exact Fifo.take_valid inv.fifo ready front

theorem step_inv (inv : Inv bits s) (stepped : step s a = some t) : Inv bits t := by
  cases a with
  | newSubmission =>
    cases stepped
    exact newSubmission_inv inv
  | fill i v =>
    obtain ⟨sqe, pointer, rfl⟩ := Option.map_eq_some_iff.mp stepped
    exact fill_inv inv pointer v
  | wait count =>
    simp only [step] at stepped
    split at stepped
    · cases stepped
      exact wait_inv inv ‹_› count
    · contradiction
  | consume =>
    simp only [step] at stepped
    split at stepped
    · cases stepped
      exact consume_inv inv (And.right ‹_›)
    · contradiction

/-- One step of the rings is one operation of the queue. -/
theorem step_refines (inv : Inv bits s) (stepped : step s a = some t) :
    Fifo.step (2 ^ bits) s.fifo a.op = some t.fifo := by
  have split := inv.published_add_held
  cases a with
  | newSubmission =>
    cases stepped
    by_cases room : s.fifo.pending < 2 ^ bits
    · rw [inv.newSubmission_accepts room]
      refine (congrArg some (if_pos room)).trans ?_
      simp only [State.fifo, State.published, List.length_append, List.length_singleton,
        Nat.add_sub_add_right]
    · rw [inv.newSubmission_refuses room]
      exact congrArg some (if_neg room)
  | fill i v =>
    obtain ⟨sqe, pointer, rfl⟩ := Option.map_eq_some_iff.mp stepped
    obtain ⟨within, -⟩ := List.getElem?_eq_some_iff.mp pointer
    have unpublished : s.published + i < s.accepted.length := by omega
    refine (if_pos unpublished).trans ?_
    simp only [State.fifo, fill, State.published, List.length_set]
  | wait count =>
    simp only [step] at stepped
    split at stepped
    · rename_i filled
      cases stepped
      refine (if_pos filled).trans ?_
      simp only [State.fifo, wait, State.published, List.length_nil, Nat.sub_zero]
    · contradiction
  | consume =>
    simp only [step] at stepped
    split at stepped
    · rename_i allowed
      cases stepped
      obtain ⟨ready, front⟩ := consume_front inv allowed.2
      refine (if_pos ready).trans ?_
      simp only [State.fifo, front, Option.join_some, Option.map_some, consume, State.published]
    · contradiction

end Steps

/-- Every run of the rings is the run of the queue with the same operations. -/
theorem run_refines (inv : Inv bits (s : State α)) (ran : Transition.run step s acts = some t) :
    Inv bits t ∧
      Transition.run (Fifo.step (2 ^ bits)) s.fifo (acts.map Action.op) = some t.fifo := by
  induction acts generalizing s with
  | nil =>
    cases ran
    exact ⟨inv, rfl⟩
  | cons a rest ih =>
    obtain ⟨middle, head, tail⟩ := Transition.run_cons_some.mp ran
    obtain ⟨final, refined⟩ := ih (step_inv inv head) tail
    exact ⟨final, Transition.run_cons_some.mpr ⟨_, step_refines inv head, refined⟩⟩

/-- The submission ring is the bounded queue of `*sq_entries` entries: whatever the
kernel consumed is a prefix of what was accepted, with the contents the caller
wrote; `uring_wait` asks for exactly the outstanding entries; and a submission is
refused exactly when the ring is full of them. -/
theorem submission_ring_refines_fifo (small : bits ≤ 15) (sqArray : UInt32 → UInt32)
    (sqes : UInt32 → α)
    (ran : Transition.run step (start bits sqArray sqes) acts = some s) :
    Transition.run (Fifo.step (2 ^ bits)) Fifo.empty (acts.map Action.op) = some s.fifo ∧
    s.consumed.map some <+: s.accepted ∧
    (∀ count, (uringWait s.uring s.sq count).1.toSubmit.toNat =
      s.accepted.length - s.consumed.length) ∧
    ((uringNewSubmission s.uring s.sq).1 = none ↔
      s.accepted.length - s.consumed.length = s.sq.sqEntries.toNat) := by
  obtain ⟨inv, refined⟩ := run_refines (start_inv (by omega) sqArray sqes) ran
  refine ⟨refined, inv.fifo.consumed_prefix, inv.uringWait_toSubmit, ?_⟩
  have bounded : s.accepted.length ≤ s.consumed.length + 2 ^ bits := inv.fifo.bounded
  have positive : 0 < 2 ^ bits := Nat.two_pow_pos bits
  have pending : s.fifo.pending = s.accepted.length - s.consumed.length := rfl
  rw [inv.newSubmission_eq, inv.sized.entries_toNat]
  split
  · simp only [reduceCtorEq, false_iff]
    omega
  · simp only [true_iff]
    omega

/-- Two entries through a one-entry ring, the second refused until the first is
consumed. -/
theorem submission_ring_one_entry :
    ∃ s : State Nat, Transition.run step (start 0 (fun _ => 7) (fun _ => 0))
        [.newSubmission, .newSubmission, .fill 0 5, .wait 1, .consume, .newSubmission, .fill 0 6,
          .wait 1] = some s ∧
      s.consumed = [5] ∧ s.accepted = [some 5, some 6] ∧
      (s.consumed.map some <+: s.accepted) ∧
      (uringNewSubmission s.uring s.sq).1 = none := by
  have ran : Transition.run step (start 0 (fun _ => 7) (fun _ => (0 : Nat)))
      [.newSubmission, .newSubmission, .fill 0 5, .wait 1, .consume, .newSubmission, .fill 0 6,
        .wait 1] = some _ := rfl
  obtain ⟨-, delivered, -, refused⟩ := submission_ring_refines_fifo (by decide) _ _ ran
  exact ⟨_, ran, rfl, rfl, delivered, refused.mpr rfl⟩

end MinLinux.Uring.Submission
