import MinLinux.Transition
import MinLinux.Uring.Queue

/-! The completion side under every interleaving of the event loop and the kernel.
`uring_result` and `uring_advance` are split at their loads and stores of shared
counters, so a completion may be posted between any two of them and at any moment
while `handle` runs. -/
namespace MinLinux.Uring.Completion
open MinLinux.Ring

variable {β : Type}

/-- The ring, everything posted to it and how many completions were retired. -/
structure Queue (β : Type) where
  cq : CqRing β
  posted : List β
  retired : Nat

/-- The kernel writes the entry before it moves the tail. -/
def Queue.post (q : Queue β) (cqe : β) : Queue β :=
  { q with
    cq := { q.cq with
      cqes := Function.update q.cq.cqes (q.cq.cqTail &&& q.cq.cqMask) cqe
      cqTail := q.cq.cqTail + 1 }
    posted := q.posted ++ [cqe] }

def Queue.advance (q : Queue β) : Queue β :=
  { q with cq := uringAdvance q.cq, retired := q.retired + 1 }

/-- Completions posted and not yet retired, oldest first. -/
def Queue.unretired (q : Queue β) : List β := q.posted.drop q.retired

/-- Both counters count completions, and the cells between them hold those that
are not retired. -/
structure Queue.Inv (bits : Nat) (q : Queue β) : Prop where
  sized : Sized q.cq.cqEntries q.cq.cqMask bits
  cqHead : q.cq.cqHead = UInt32.ofNat q.retired
  cqTail : q.cq.cqTail = UInt32.ofNat q.posted.length
  retired_le : q.retired ≤ q.posted.length
  bounded : q.posted.length ≤ q.retired + 2 ^ bits
  cqes : Window Eq q.cq.cqMask q.cq.cqes q.retired q.unretired

def Queue.start (bits : Nat) (cqes : UInt32 → β) : Queue β where
  cq := ⟨0, 0, UInt32.ofNat (2 ^ bits) - 1, UInt32.ofNat (2 ^ bits), cqes⟩
  posted := []
  retired := 0

namespace Queue
variable {q : Queue β} {bits : Nat}

theorem start_inv (small : bits ≤ 31) (cqes : UInt32 → β) : Inv bits (start bits cqes) where
  sized := ⟨small, rfl, rfl⟩
  cqHead := rfl
  cqTail := rfl
  retired_le := Nat.le_refl _
  bounded := Nat.zero_le _
  cqes := Window.nil

theorem unretired_length (q : Queue β) : q.unretired.length = q.posted.length - q.retired :=
  List.length_drop

theorem Inv.near (inv : Inv bits q) : q.posted.length - q.retired < 2 ^ 32 := by
  have := inv.bounded
  have := inv.sized.pow_lt
  omega

theorem Inv.count (inv : Inv bits q) :
    (q.cq.cqTail - q.cq.cqHead).toNat = q.unretired.length := by
  rw [inv.cqHead, inv.cqTail, counter_sub inv.retired_le inv.near, unretired_length]

theorem Inv.room_iff (inv : Inv bits q) :
    q.cq.cqTail - q.cq.cqHead < q.cq.cqEntries ↔ q.unretired.length < 2 ^ bits := by
  rw [UInt32.lt_iff_toNat_lt, inv.count, inv.sized.entries_toNat]

theorem Inv.empty_iff (inv : Inv bits q) : q.cq.cqHead = q.cq.cqTail ↔ q.unretired = [] := by
  rw [inv.cqHead, inv.cqTail, counter_eq_iff inv.retired_le inv.near, unretired,
    List.drop_eq_nil_iff]
  have := inv.retired_le
  omega

/-- The emptiness test is exact and the pointer is that of the oldest completion. -/
theorem Inv.uringResult_eq (inv : Inv bits q) :
    uringResult q.cq = if q.unretired = [] then none else some (slot q.cq.cqMask q.retired) := by
  simp only [uringResult, inv.empty_iff]
  rw [inv.cqHead]
  rfl

theorem Inv.front (inv : Inv bits q) (oldest : q.unretired = cqe :: rest) :
    q.cq.cqes (slot q.cq.cqMask q.retired) = cqe := by
  have window := inv.cqes
  rw [oldest] at window
  exact window.head

theorem Inv.unretired_post (inv : Inv bits q) (cqe : β) :
    (q.post cqe).unretired = q.unretired ++ [cqe] :=
  List.drop_append_of_le_length inv.retired_le

theorem Inv.post (inv : Inv bits q) (room : q.unretired.length < 2 ^ bits) (cqe : β) :
    Inv bits (q.post cqe) := by
  have retired_le := inv.retired_le
  have length := q.unretired_length
  constructor <;> try simp only [Queue.post, List.length_append, List.length_singleton]
  · exact inv.sized
  · exact inv.cqHead
  · rw [inv.cqTail, UInt32.ofNat_add]
    rfl
  · omega
  · omega
  · have pushed := inv.cqes.push (v := cqe) (b := cqe) inv.sized room rfl
    rw [length, Nat.add_sub_cancel' retired_le, ← inv.unretired_post] at pushed
    rw [inv.cqTail]
    exact pushed

theorem unretired_advance (occupied : q.unretired = cqe :: rest) :
    q.advance.unretired = rest := by
  change q.posted.drop (q.retired + 1) = rest
  rw [← List.drop_drop, ← unretired, occupied]
  rfl

theorem Inv.advance (inv : Inv bits q) (occupied : q.unretired ≠ []) : Inv bits q.advance := by
  have pending : q.retired < q.posted.length := by
    have := List.length_pos_of_ne_nil occupied
    rw [unretired_length] at this
    omega
  constructor <;> simp only [Queue.advance, uringAdvance]
  · exact inv.sized
  · rw [inv.cqHead, UInt32.ofNat_add]
    rfl
  · exact inv.cqTail
  · omega
  · have := inv.bounded
    omega
  · have shifted := inv.cqes.drop 1
    rw [unretired, List.drop_drop] at shifted
    exact shifted

end Queue

/-- Where the loop stands between its accesses to the shared counters. -/
inductive Pc where
  | polling
  | resultHead (head : UInt32)
  | handling (cqe : UInt32)
  | advanceHead (cqe head : UInt32)
deriving DecidableEq

structure State (β : Type) where
  queue : Queue β
  pc : Pc
  handled : List β

inductive Action (β : Type) where
  | post (cqe : β)
  | loadHead
  | loadTail
  | finishHandle
  | storeHead

/-- One access of the event loop, or one post of the kernel. A NULL result sends
the loop back to its next iteration. -/
def step (s : State β) : Action β → Option (State β)
  | .post cqe =>
      if s.queue.cq.cqTail - s.queue.cq.cqHead < s.queue.cq.cqEntries then
        some { s with queue := s.queue.post cqe }
      else none
  | .loadHead =>
      match s.pc with
      | .polling => some { s with pc := .resultHead s.queue.cq.cqHead }
      | _ => none
  | .loadTail =>
      match s.pc with
      | .resultHead head =>
          if head = s.queue.cq.cqTail then some { s with pc := .polling }
          else
            let cqe := head &&& s.queue.cq.cqMask
            some { s with pc := .handling cqe, handled := s.handled ++ [s.queue.cq.cqes cqe] }
      | _ => none
  | .finishHandle =>
      match s.pc with
      | .handling cqe => some { s with pc := .advanceHead cqe s.queue.cq.cqHead }
      | _ => none
  | .storeHead =>
      match s.pc with
      | .advanceHead _ head =>
          some { s with
            pc := .polling
            queue := { s.queue with
              cq := { s.queue.cq with cqHead := head + 1 }
              retired := s.queue.retired + 1 } }
      | _ => none

def start (bits : Nat) (cqes : UInt32 → β) : State β := ⟨Queue.start bits cqes, .polling, []⟩

/-- What each control point has established about the ring and the history. -/
def Aligned (s : State β) : Pc → Prop
  | .polling => s.handled = s.queue.posted.take s.queue.retired
  | .resultHead head =>
      head = s.queue.cq.cqHead ∧ s.handled = s.queue.posted.take s.queue.retired
  | .handling cqe =>
      ∃ v rest, s.queue.unretired = v :: rest ∧ cqe = slot s.queue.cq.cqMask s.queue.retired ∧
        s.handled = s.queue.posted.take s.queue.retired ++ [v]
  | .advanceHead cqe head =>
      head = s.queue.cq.cqHead ∧
      ∃ v rest, s.queue.unretired = v :: rest ∧ cqe = slot s.queue.cq.cqMask s.queue.retired ∧
        s.handled = s.queue.posted.take s.queue.retired ++ [v]

structure Inv (bits : Nat) (s : State β) : Prop where
  queue : s.queue.Inv bits
  aligned : Aligned s s.pc

section Steps
variable {s t : State β} {bits : Nat}

theorem start_inv (small : bits ≤ 31) (cqes : UInt32 → β) : Inv bits (start bits cqes) :=
  ⟨Queue.start_inv small cqes, rfl⟩

/-- A post lengthens the history behind everything a control point relies on. -/
theorem post_aligned (inv : Inv bits s) (cqe : β) :
    Aligned { s with queue := s.queue.post cqe } s.pc := by
  have history : (s.queue.post cqe).posted.take s.queue.retired =
      s.queue.posted.take s.queue.retired :=
    List.take_append_of_le_length inv.queue.retired_le
  have grown := inv.queue.unretired_post cqe
  have aligned := inv.aligned
  cases pc : s.pc with
  | polling =>
    rw [pc] at aligned
    exact aligned.trans history.symm
  | resultHead head =>
    rw [pc] at aligned
    exact ⟨aligned.1, aligned.2.trans history.symm⟩
  | handling pointer =>
    rw [pc] at aligned
    obtain ⟨v, rest, oldest, same, handled⟩ := aligned
    refine ⟨v, rest ++ [cqe], ?_, same, ?_⟩
    · rw [grown, oldest, List.cons_append]
    · exact handled.trans (congrArg (· ++ [v]) history.symm)
  | advanceHead pointer head =>
    rw [pc] at aligned
    obtain ⟨loaded, v, rest, oldest, same, handled⟩ := aligned
    refine ⟨loaded, v, rest ++ [cqe], ?_, same, ?_⟩
    · rw [grown, oldest, List.cons_append]
    · exact handled.trans (congrArg (· ++ [v]) history.symm)

theorem post_inv (inv : Inv bits s) (stepped : step s (.post cqe) = some t) : Inv bits t := by
  simp only [step] at stepped
  split at stepped
  · rename_i room
    cases stepped
    exact ⟨inv.queue.post (inv.queue.room_iff.mp room) cqe, post_aligned inv cqe⟩
  · contradiction

/-- The head loaded earlier is still the head, so the comparison decides the
emptiness of the ring at the moment the tail is read. -/
theorem loadTail_inv (inv : Inv bits s) (stepped : step s .loadTail = some t) : Inv bits t := by
  have aligned := inv.aligned
  simp only [step] at stepped
  split at stepped
  · rename_i head pc
    rw [pc] at aligned
    obtain ⟨loaded, handled⟩ := aligned
    split at stepped
    · cases stepped
      exact ⟨inv.queue, handled⟩
    · rename_i different
      cases stepped
      have occupied : s.queue.unretired ≠ [] := by
        rw [ne_eq, ← inv.queue.empty_iff, ← loaded]
        exact different
      obtain ⟨v, rest, oldest⟩ := List.exists_cons_of_ne_nil occupied
      have pointer : head &&& s.queue.cq.cqMask = slot s.queue.cq.cqMask s.queue.retired := by
        rw [loaded, inv.queue.cqHead]
        rfl
      refine ⟨inv.queue, v, rest, oldest, pointer, ?_⟩
      simp only [pointer, inv.queue.front oldest, handled]
  · contradiction

theorem storeHead_inv (inv : Inv bits s) (stepped : step s .storeHead = some t) : Inv bits t := by
  have aligned := inv.aligned
  simp only [step] at stepped
  split at stepped
  · rename_i pointer head pc
    cases stepped
    rw [pc] at aligned
    obtain ⟨loaded, v, rest, oldest, -, handled⟩ := aligned
    have occupied : s.queue.unretired ≠ [] := by
      rw [oldest]
      exact List.cons_ne_nil _ _
    have within : s.queue.retired < s.queue.posted.length := by
      have := List.length_pos_of_ne_nil occupied
      rw [Queue.unretired_length] at this
      omega
    have entry : s.queue.posted[s.queue.retired] = v := by
      have first := List.drop_eq_getElem_cons within
      rw [← Queue.unretired, oldest] at first
      exact (List.cons.inj first).1.symm
    constructor
    · rw [loaded]
      exact inv.queue.advance occupied
    · change s.handled = s.queue.posted.take (s.queue.retired + 1)
      rw [List.take_succ_eq_append_getElem within, entry, handled]
  · contradiction

theorem step_inv (inv : Inv bits s) (stepped : step s a = some t) : Inv bits t := by
  cases a with
  | post cqe => exact post_inv inv stepped
  | loadTail => exact loadTail_inv inv stepped
  | storeHead => exact storeHead_inv inv stepped
  | loadHead =>
    have aligned := inv.aligned
    simp only [step] at stepped
    split at stepped
    · rename_i pc
      cases stepped
      rw [pc] at aligned
      exact ⟨inv.queue, rfl, aligned⟩
    · contradiction
  | finishHandle =>
    have aligned := inv.aligned
    simp only [step] at stepped
    split at stepped
    · rename_i pointer pc
      cases stepped
      rw [pc] at aligned
      exact ⟨inv.queue, rfl, aligned⟩
    · contradiction

theorem run_inv (small : bits ≤ 31) (cqes : UInt32 → β)
    (ran : Transition.run step (start bits cqes) acts = some s) : Inv bits s :=
  Transition.run_invariant step_inv (start_inv small cqes) ran

theorem Inv.result_null_iff (inv : Inv bits s) :
    s.queue.cq.cqHead = s.queue.cq.cqTail ↔ s.queue.retired = s.queue.posted.length := by
  rw [inv.queue.cqHead, inv.queue.cqTail]
  exact counter_eq_iff inv.queue.retired_le inv.queue.near

/-- The entry under the pointer is the oldest unretired completion, and the last
one counted as handled. -/
theorem Inv.pointed (inv : Inv bits s)
    (pc : s.pc = .handling cqe ∨ ∃ head, s.pc = .advanceHead cqe head) :
    s.queue.posted[s.queue.retired]? = some (s.queue.cq.cqes cqe) ∧
      s.handled = s.queue.posted.take s.queue.retired ++ [s.queue.cq.cqes cqe] := by
  have aligned := inv.aligned
  have facts : ∃ v rest, s.queue.unretired = v :: rest ∧
      cqe = slot s.queue.cq.cqMask s.queue.retired ∧
      s.handled = s.queue.posted.take s.queue.retired ++ [v] := by
    rcases pc with pc | ⟨head, pc⟩
    · rwa [pc] at aligned
    · rw [pc] at aligned
      exact aligned.2
  obtain ⟨v, rest, oldest, rfl, handled⟩ := facts
  rw [inv.queue.front oldest]
  refine ⟨?_, handled⟩
  have first := congrArg List.head? oldest
  rwa [Queue.unretired, List.head?_drop] at first

theorem Inv.handled_prefix (inv : Inv bits s) : s.handled <+: s.queue.posted := by
  have aligned := inv.aligned
  cases pc : s.pc with
  | polling =>
    rw [pc] at aligned
    rw [show s.handled = _ from aligned]
    exact List.take_prefix _ _
  | resultHead head =>
    rw [pc] at aligned
    rw [aligned.2]
    exact List.take_prefix _ _
  | handling cqe =>
    obtain ⟨entry, handled⟩ := inv.pointed (.inl pc)
    obtain ⟨within, same⟩ := List.getElem?_eq_some_iff.mp entry
    rw [handled, ← same, ← List.take_succ_eq_append_getElem within]
    exact List.take_prefix _ _
  | advanceHead cqe head =>
    obtain ⟨entry, handled⟩ := inv.pointed (.inr ⟨head, pc⟩)
    obtain ⟨within, same⟩ := List.getElem?_eq_some_iff.mp entry
    rw [handled, ← same, ← List.take_succ_eq_append_getElem within]
    exact List.take_prefix _ _

end Steps

/-- Exactly-once, in-order delivery. The NULL test is exact both for a whole
`uring_result` and for one whose head was loaded earlier; the pointer `handle`
holds shows the posted completion until the head is stored. -/
theorem completions_delivered_once (small : bits ≤ 16) (cqes : UInt32 → β)
    (ran : Transition.run step (start bits cqes) acts = some s) :
    s.handled <+: s.queue.posted ∧
    (uringResult s.queue.cq = none ↔ s.queue.retired = s.queue.posted.length) ∧
    (∀ head, s.pc = .resultHead head →
      (head = s.queue.cq.cqTail ↔ s.queue.retired = s.queue.posted.length)) ∧
    (s.pc = .polling ∨ (∃ head, s.pc = .resultHead head) →
      s.handled = s.queue.posted.take s.queue.retired) ∧
    (∀ cqe, s.pc = .handling cqe ∨ (∃ head, s.pc = .advanceHead cqe head) →
      s.queue.posted[s.queue.retired]? = some (s.queue.cq.cqes cqe) ∧
      s.handled = s.queue.posted.take s.queue.retired ++ [s.queue.cq.cqes cqe]) := by
  have inv := run_inv (by omega) cqes ran
  refine ⟨inv.handled_prefix, ?_, ?_, ?_, fun cqe => inv.pointed⟩
  · rw [← inv.result_null_iff]
    simp [uringResult]
  · intro head pc
    have aligned := inv.aligned
    rw [pc] at aligned
    rw [aligned.1]
    exact inv.result_null_iff
  · have aligned := inv.aligned
    rintro (pc | ⟨head, pc⟩)
    · rwa [pc] at aligned
    · rw [pc] at aligned
      exact aligned.2

/-- Two completions through a two-entry ring; the second is posted while the
first is being handled. -/
theorem completions_delivered_pair :
    ∃ s : State Nat, Transition.run step (start 1 (fun _ => 0))
        [.post 5, .loadHead, .loadTail, .post 6, .finishHandle, .storeHead, .loadHead,
          .loadTail] = some s ∧
      s.handled = [5, 6] ∧ s.pc = .handling 1 ∧ s.handled <+: s.queue.posted := by
  have ran : Transition.run step (start 1 (fun _ => (0 : Nat)))
      [.post 5, .loadHead, .loadTail, .post 6, .finishHandle, .storeHead, .loadHead,
        .loadTail] = some _ := rfl
  exact ⟨_, ran, rfl, rfl, (completions_delivered_once (by decide) _ ran).1⟩

end MinLinux.Uring.Completion
