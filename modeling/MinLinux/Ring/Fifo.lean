import MinLinux.Transition

/-! Bounded first-in first-out queue with reserved entries. A producer reserves an
entry, writes it, and publishes everything reserved so far; a consumer takes
published entries in order. Histories are kept whole, so loss, duplication and
reordering are visible in the state. -/
namespace MinLinux.Ring

/-- A reserved entry that has not been written yet is `none`. -/
structure Fifo (α : Type) where
  accepted : List (Option α)
  published : Nat
  consumed : List α
deriving DecidableEq

inductive Fifo.Op (α : Type) where
  | offer
  | fill (index : Nat) (value : α)
  | publish
  | take

namespace Fifo
variable {α : Type}

def empty : Fifo α := ⟨[], 0, []⟩

def pending (q : Fifo α) : Nat := q.accepted.length - q.consumed.length

/-- An offer to a full queue is refused and changes nothing. Entries are written
only while unpublished, and published only once written. -/
def step (capacity : Nat) (q : Fifo α) : Op α → Option (Fifo α)
  | .offer => some (if q.pending < capacity then { q with accepted := q.accepted ++ [none] } else q)
  | .fill i v =>
      if q.published + i < q.accepted.length then
        some { q with accepted := q.accepted.set (q.published + i) (some v) }
      else none
  | .publish =>
      if q.accepted.all Option.isSome then some { q with published := q.accepted.length } else none
  | .take =>
      if q.consumed.length < q.published then
        (q.accepted[q.consumed.length]?).join.map fun v => { q with consumed := q.consumed ++ [v] }
      else none

/-- Deliveries so far are the first accepted entries, all of them published. -/
structure Valid (capacity : Nat) (q : Fifo α) : Prop where
  delivered : q.consumed.map some = q.accepted.take q.consumed.length
  consumed_le : q.consumed.length ≤ q.published
  published_le : q.published ≤ q.accepted.length
  bounded : q.accepted.length ≤ q.consumed.length + capacity
  written : ∀ i < q.published, ∃ v, q.accepted[i]? = some (some v)

theorem empty_valid : Valid capacity (empty : Fifo α) :=
  ⟨rfl, Nat.le_refl _, Nat.le_refl _, Nat.zero_le _, fun _ h => absurd h (Nat.not_lt_zero _)⟩

theorem offer_valid (valid : Valid capacity q) :
    Valid capacity (if q.pending < capacity then
      { q with accepted := q.accepted ++ [none] } else q : Fifo α) := by
  obtain ⟨delivered, consumed_le, published_le, bounded, written⟩ := valid
  split
  · rename_i room
    simp only [pending] at room
    constructor <;> dsimp only
    · rw [List.take_append_of_le_length (by omega), delivered]
    · exact consumed_le
    · simp only [List.length_append, List.length_singleton]
      omega
    · simp only [List.length_append, List.length_singleton]
      omega
    · intro i h
      rw [List.getElem?_append_left (by omega)]
      exact written i h
  · exact ⟨delivered, consumed_le, published_le, bounded, written⟩

theorem fill_valid (valid : Valid capacity q) (v : α) :
    Valid capacity { q with accepted := q.accepted.set (q.published + i) (some v) } := by
  obtain ⟨delivered, consumed_le, published_le, bounded, written⟩ := valid
  constructor <;> dsimp only
  · rw [List.take_set_of_le (by omega), delivered]
  · exact consumed_le
  · simpa only [List.length_set] using published_le
  · simpa only [List.length_set] using bounded
  · intro j h
    rw [List.getElem?_set_ne (by omega)]
    exact written j h

theorem publish_valid (valid : Valid capacity q) (filled : q.accepted.all Option.isSome = true) :
    Valid capacity { q with published := (q.accepted : List (Option α)).length } := by
  obtain ⟨delivered, consumed_le, published_le, bounded, written⟩ := valid
  refine ⟨delivered, Nat.le_trans consumed_le published_le, Nat.le_refl _, bounded, ?_⟩
  intro i h
  have present := List.all_eq_true.mp filled _ (List.getElem_mem h)
  obtain ⟨v, same⟩ := Option.isSome_iff_exists.mp present
  exact ⟨v, by rw [List.getElem?_eq_getElem h, same]⟩

theorem take_valid (valid : Valid capacity q) (ready : q.consumed.length < q.published)
    (front : q.accepted[q.consumed.length]? = some (some v)) :
    Valid capacity ({ q with consumed := q.consumed ++ [v] } : Fifo α) := by
  obtain ⟨delivered, consumed_le, published_le, bounded, written⟩ := valid
  constructor <;> dsimp only
  · have within : q.consumed.length < q.accepted.length := by omega
    have entry : q.accepted[q.consumed.length] = some v := by
      rwa [List.getElem?_eq_getElem within, Option.some.injEq] at front
    rw [List.map_append, delivered, List.length_append, List.length_singleton,
      List.take_succ_eq_append_getElem within, entry]
    rfl
  · simp only [List.length_append, List.length_singleton]
    omega
  · exact published_le
  · simp only [List.length_append, List.length_singleton]
    omega
  · exact written

theorem Valid.consumed_prefix (valid : Valid capacity (q : Fifo α)) :
    q.consumed.map some <+: q.accepted := by
  rw [valid.delivered]
  exact List.take_prefix _ _

end Fifo
end MinLinux.Ring
