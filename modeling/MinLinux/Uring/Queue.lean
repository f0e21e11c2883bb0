import MinLinux.Ring.Window

/-! The ring operations of util/uring_ctl.c. `UringQueue` holds the two counters
that are private to the process; `SqRing` and `CqRing` hold what lies behind the
pointers into the MAP_SHARED mappings. An entry pointer is the index it is formed
from. The submission entry type is arbitrary: no ring operation inspects it. -/
namespace MinLinux.Uring

@[ext] structure UringQueue where
  sqListHead : UInt32
  sqListTail : UInt32
deriving DecidableEq, Repr

structure SqRing (α : Type) where
  sqHead : UInt32
  sqTail : UInt32
  sqMask : UInt32
  sqEntries : UInt32
  sqArray : UInt32 → UInt32
  sqes : UInt32 → α

structure CqRing (β : Type) where
  cqHead : UInt32
  cqTail : UInt32
  cqMask : UInt32
  cqEntries : UInt32
  cqes : UInt32 → β

/-- `none` is the NULL of an empty ring. -/
def uringResult (cq : CqRing β) : Option UInt32 :=
  let head := cq.cqHead
  if head = cq.cqTail then none else some (head &&& cq.cqMask)

def uringAdvance (cq : CqRing β) : CqRing β :=
  let head := cq.cqHead
  { cq with cqHead := head + 1 }

/-- `none` is the NULL of a full ring; the private tail then stays. -/
def uringNewSubmission (uring : UringQueue) (sq : SqRing α) : Option UInt32 × UringQueue :=
  let head := sq.sqHead
  let next := uring.sqListTail + 1
  if next - head ≤ sq.sqEntries then
    (some (uring.sqListTail &&& sq.sqMask), { uring with sqListTail := next })
  else (none, uring)

/-- What the publishing loop of `uring_wait` works on. -/
structure Flush where
  sqTail : UInt32
  sqListHead : UInt32
  sqArray : UInt32 → UInt32

/-- The body of the loop, run `toSubmit` times. -/
def flush (mask : UInt32) : Nat → Flush → Flush
  | 0, f => f
  | toSubmit + 1, f =>
      flush mask toSubmit
        { sqTail := f.sqTail + 1
          sqListHead := f.sqListHead + 1
          sqArray := Function.update f.sqArray (f.sqTail &&& mask) (f.sqListHead &&& mask) }

/-- The arguments of `io_uring_enter` that `uring_wait` computes. -/
structure Enter where
  toSubmit : UInt32
  minComplete : UInt32
deriving DecidableEq, Repr

def uringWait (uring : UringQueue) (sq : SqRing α) (count : UInt32) :
    Enter × UringQueue × SqRing α :=
  let toSubmit := uring.sqListTail - uring.sqListHead
  if 0 < toSubmit then
    let f := flush sq.sqMask toSubmit.toNat ⟨sq.sqTail, uring.sqListHead, sq.sqArray⟩
    (⟨f.sqTail - sq.sqHead, count⟩, { uring with sqListHead := f.sqListHead },
      { sq with sqTail := f.sqTail, sqArray := f.sqArray })
  else (⟨sq.sqTail - sq.sqHead, count⟩, uring, sq)

end MinLinux.Uring
