import MinLinux.Uring.Queue

/-! The mappings `uring_init` asks for, and the bytes of them that the ring operations
touch. A pointer into a mapping is its offset from the start of the mapping. -/
namespace MinLinux.Uring
open MinLinux.Ring

structure IoSqringOffsets where
  head : UInt32
  tail : UInt32
  ringMask : UInt32
  ringEntries : UInt32
  array : UInt32

structure IoCqringOffsets where
  head : UInt32
  tail : UInt32
  ringMask : UInt32
  ringEntries : UInt32
  cqes : UInt32

structure IoUringParams where
  sqEntries : UInt32
  cqEntries : UInt32
  sqOff : IoSqringOffsets
  cqOff : IoCqringOffsets

/-- The end of an array, computed in `size_t` and stored in an `int`. -/
def arrayEnd (base entries : UInt32) (size : UInt64) : Int32 :=
  (base.toUInt64 + entries.toUInt64 * size).toUInt32.toInt32

def sringSz (p : IoUringParams) : Int32 := arrayEnd p.sqOff.array p.sqEntries 4

def cringSz (p : IoUringParams) : Int32 := arrayEnd p.cqOff.cqes p.cqEntries 16

/-- What `uring_init` leaves in the queue besides the counters. -/
structure Mapping where
  mmapRingSize : UInt64
  mmapSqesSize : UInt64
  sqHead : UInt32
  sqTail : UInt32
  sqMask : UInt32
  sqArray : UInt32
  sqEntries : UInt32
  cqHead : UInt32
  cqTail : UInt32
  cqMask : UInt32
  cqes : UInt32
  cqEntries : UInt32

def uringInit (p : IoUringParams) : Mapping where
  mmapRingSize := (if sringSz p < cringSz p then cringSz p else sringSz p).toInt64.toUInt64
  mmapSqesSize := p.sqEntries.toUInt64 * 64
  sqHead := p.sqOff.head
  sqTail := p.sqOff.tail
  sqMask := p.sqOff.ringMask
  sqArray := p.sqOff.array
  sqEntries := p.sqOff.ringEntries
  cqHead := p.cqOff.head
  cqTail := p.cqOff.tail
  cqMask := p.cqOff.ringMask
  cqes := p.cqOff.cqes
  cqEntries := p.cqOff.ringEntries

/-- What io_uring_setup may return. -/
structure IoUringParams.Valid (p : IoUringParams) : Prop where
  sq_entries : ∃ bits ≤ 15, p.sqEntries = UInt32.ofNat (2 ^ bits)
  cq_entries : ∃ bits ≤ 16, p.cqEntries = UInt32.ofNat (2 ^ bits)
  array : p.sqOff.array.toNat < 2 ^ 30
  cqes : p.cqOff.cqes.toNat < 2 ^ 30
  fields : ∀ field ∈ [p.sqOff.head, p.sqOff.tail, p.sqOff.ringMask, p.sqOff.ringEntries,
      p.cqOff.head, p.cqOff.tail, p.cqOff.ringMask, p.cqOff.ringEntries],
    field.toNat + 4 ≤ max (p.sqOff.array.toNat + p.sqEntries.toNat * 4)
      (p.cqOff.cqes.toNat + p.cqEntries.toNat * 16)

inductive Region where
  | ring
  | sqes

/-- Bytes that are loaded or stored. -/
structure Access where
  region : Region
  offset : Nat
  size : Nat

namespace Mapping

def mapped (m : Mapping) : Region → Nat
  | .ring => m.mmapRingSize.toNat
  | .sqes => m.mmapSqesSize.toNat

def Inside (m : Mapping) (a : Access) : Prop := a.offset + a.size ≤ m.mapped a.region

def field (offset : UInt32) : Access := ⟨.ring, offset.toNat, 4⟩

def sqArrayAt (m : Mapping) (i : UInt32) : Access := ⟨.ring, m.sqArray.toNat + i.toNat * 4, 4⟩

/-- The whole entry, which the caller may read or fill in. -/
def cqeAt (m : Mapping) (i : UInt32) : Access := ⟨.ring, m.cqes.toNat + i.toNat * 16, 16⟩

def sqeAt (i : UInt32) : Access := ⟨.sqes, i.toNat * 64, 64⟩

end Mapping

open Mapping

inductive Op where
  | newSubmission
  | wait (count : UInt32)
  | result
  | advance

/-- An operation, and what it finds in the shared memory: counters that the kernel may
have moved anywhere. -/
structure Visit (α β : Type) where
  op : Op
  sq : SqRing α
  cq : CqRing β

section Accesses
variable {α β : Type} (m : Mapping)

/-- The stores of the loop of `uring_wait`. -/
def flushAccesses (mask : UInt32) : Nat → Flush → List Access
  | 0, _ => []
  | toSubmit + 1, f =>
      m.sqArrayAt (f.sqTail &&& mask) :: flushAccesses mask toSubmit (flush mask 1 f)

def waitAccesses (uring : UringQueue) (sq : SqRing α) : List Access :=
  let toSubmit := uring.sqListTail - uring.sqListHead
  [field m.sqMask, field m.sqTail] ++
    (if 0 < toSubmit then
      flushAccesses m sq.sqMask toSubmit.toNat ⟨sq.sqTail, uring.sqListHead, sq.sqArray⟩ ++
        [field m.sqTail]
    else []) ++ [field m.sqHead]

def newSubmissionAccesses (uring : UringQueue) (sq : SqRing α) : List Access :=
  [field m.sqHead, field m.sqEntries] ++
    match (uringNewSubmission uring sq).1 with
    | none => []
    | some i => [field m.sqMask, sqeAt i]

def resultAccesses (cq : CqRing β) : List Access :=
  [field m.cqHead, field m.cqTail] ++
    match uringResult cq with
    | none => []
    | some i => [field m.cqMask, m.cqeAt i]

/-- One load and one store. -/
def advanceAccesses : List Access := [field m.cqHead, field m.cqHead]

def Visit.accesses (uring : UringQueue) (visit : Visit α β) : List Access :=
  match visit.op with
  | .newSubmission => newSubmissionAccesses m uring visit.sq
  | .wait _ => waitAccesses m uring visit.sq
  | .result => resultAccesses m visit.cq
  | .advance => advanceAccesses m

def Visit.after (uring : UringQueue) (visit : Visit α β) : UringQueue :=
  match visit.op with
  | .newSubmission => (uringNewSubmission uring visit.sq).2
  | .wait count => (uringWait uring visit.sq count).2.1
  | .result => uring
  | .advance => uring

/-- The accesses of a run. -/
def accesses : UringQueue → List (Visit α β) → List Access
  | _, [] => []
  | uring, visit :: later => visit.accesses m uring ++ accesses (visit.after uring) later

end Accesses

section Sizes

/-- The sum fits the `size_t`, and then the `int`. -/
theorem arrayEnd_toInt (inside : base.toNat < 2 ^ 30) (few : entries.toNat ≤ 2 ^ 16)
    (small : size.toNat ≤ 16) :
    (arrayEnd base entries size).toInt = base.toNat + entries.toNat * size.toNat := by
  have product : entries.toNat * size.toNat ≤ 2 ^ 16 * 16 := Nat.mul_le_mul few small
  have wide : (base.toUInt64 + entries.toUInt64 * size).toNat =
      base.toNat + entries.toNat * size.toNat := by
    rw [UInt64.toNat_add, UInt64.toNat_mul, UInt32.toNat_toUInt64, UInt32.toNat_toUInt64]
    omega
  have narrow : (base.toUInt64 + entries.toUInt64 * size).toUInt32.toBitVec.toNat =
      base.toNat + entries.toNat * size.toNat := by
    rw [UInt32.toNat_toBitVec, UInt64.toNat_toUInt32, wide]
    omega
  have signed := BitVec.toInt_eq_toNat_of_lt
    (x := (base.toUInt64 + entries.toUInt64 * size).toUInt32.toBitVec) (by omega)
  rw [narrow] at signed
  exact signed.trans (Int.natCast_add _ _)

theorem toUInt64_toNat (value : Int32) (nonneg : 0 ≤ value.toInt) :
    (value.toInt64.toUInt64.toNat : Int) = value.toInt := by
  have wide : 0 ≤ value.toInt64 := by
    apply Int64.le_iff_toInt_le.mpr
    rwa [Int32.toInt_toInt64]
  rw [Int64.toNat_toUInt64_of_le wide, Int64.toNatClampNeg, Int32.toInt_toInt64]
  exact Int.toNat_of_nonneg nonneg

namespace IoUringParams.Valid
variable {p : IoUringParams}

theorem sq_sized (valid : p.Valid) :
    ∃ bits, Sized p.sqEntries (p.sqEntries - 1) bits ∧ p.sqEntries.toNat ≤ 2 ^ 15 := by
  obtain ⟨bits, few, power⟩ := valid.sq_entries
  have sized : Sized p.sqEntries (p.sqEntries - 1) bits := ⟨by omega, power, rfl⟩
  refine ⟨bits, sized, ?_⟩
  rw [sized.entries_toNat]
  exact Nat.pow_le_pow_right Nat.two_pos few

theorem cq_sized (valid : p.Valid) :
    ∃ bits, Sized p.cqEntries (p.cqEntries - 1) bits ∧ p.cqEntries.toNat ≤ 2 ^ 16 := by
  obtain ⟨bits, few, power⟩ := valid.cq_entries
  have sized : Sized p.cqEntries (p.cqEntries - 1) bits := ⟨by omega, power, rfl⟩
  refine ⟨bits, sized, ?_⟩
  rw [sized.entries_toNat]
  exact Nat.pow_le_pow_right Nat.two_pos few

theorem sringSz_toInt (valid : p.Valid) :
    (sringSz p).toInt = p.sqOff.array.toNat + p.sqEntries.toNat * 4 := by
  obtain ⟨-, -, few⟩ := valid.sq_sized
  exact arrayEnd_toInt valid.array (by omega) (by decide)

theorem cringSz_toInt (valid : p.Valid) :
    (cringSz p).toInt = p.cqOff.cqes.toNat + p.cqEntries.toNat * 16 := by
  obtain ⟨-, -, few⟩ := valid.cq_sized
  exact arrayEnd_toInt valid.cqes few (by decide)

theorem ring_size (valid : p.Valid) :
    (uringInit p).mmapRingSize.toNat = max (p.sqOff.array.toNat + p.sqEntries.toNat * 4)
      (p.cqOff.cqes.toNat + p.cqEntries.toNat * 16) := by
  have sring := valid.sringSz_toInt
  have cring := valid.cringSz_toInt
  have larger := toUInt64_toNat (if sringSz p < cringSz p then cringSz p else sringSz p)
    (by split <;> omega)
  change ((uringInit p).mmapRingSize.toNat : Int) = _ at larger
  split at larger
  · rename_i less
    have order := Int32.lt_iff_toInt_lt.mp less
    rw [Nat.max_eq_right (by omega)]
    omega
  · rename_i most
    have order := mt Int32.lt_iff_toInt_lt.mpr most
    rw [Nat.max_eq_left (by omega)]
    omega

theorem sqes_size (valid : p.Valid) :
    (uringInit p).mmapSqesSize.toNat = p.sqEntries.toNat * 64 := by
  obtain ⟨-, -, few⟩ := valid.sq_sized
  rw [uringInit, UInt64.toNat_mul, UInt32.toNat_toUInt64]
  change p.sqEntries.toNat * 64 % 2 ^ 64 = _
  omega

end IoUringParams.Valid
end Sizes

/-- The mappings reach to the ends of the arrays and of every field. -/
structure Mapping.Covers (m : Mapping) (sqEntries cqEntries : UInt32) : Prop where
  fields : ∀ offset ∈ [m.sqHead, m.sqTail, m.sqMask, m.sqEntries,
    m.cqHead, m.cqTail, m.cqMask, m.cqEntries], m.Inside (field offset)
  sqArray : m.sqArray.toNat + sqEntries.toNat * 4 ≤ m.mmapRingSize.toNat
  cqes : m.cqes.toNat + cqEntries.toNat * 16 ≤ m.mmapRingSize.toNat
  sqes : sqEntries.toNat * 64 ≤ m.mmapSqesSize.toNat

theorem uringInit_covers (valid : p.Valid) : (uringInit p).Covers p.sqEntries p.cqEntries := by
  have ring := valid.ring_size
  constructor
  · intro offset member
    exact Nat.le_trans (valid.fields offset member) (Nat.le_of_eq ring.symm)
  · rw [ring]
    exact Nat.le_max_left _ _
  · rw [ring]
    exact Nat.le_max_right _ _
  · exact Nat.le_of_eq valid.sqes_size.symm

section Runs
variable {α β : Type} {m : Mapping} {sqEntries cqEntries : UInt32} {sqBits cqBits : Nat}
  (covers : m.Covers sqEntries cqEntries) (sqSized : Sized sqEntries (sqEntries - 1) sqBits)
  (cqSized : Sized cqEntries (cqEntries - 1) cqBits)
include covers

theorem sqArrayAt_inside (within : i.toNat < sqEntries.toNat) : m.Inside (m.sqArrayAt i) := by
  have array := covers.sqArray
  change m.sqArray.toNat + i.toNat * 4 + 4 ≤ m.mmapRingSize.toNat
  omega

theorem cqeAt_inside (within : i.toNat < cqEntries.toNat) : m.Inside (m.cqeAt i) := by
  have cqes := covers.cqes
  change m.cqes.toNat + i.toNat * 16 + 16 ≤ m.mmapRingSize.toNat
  omega

theorem sqeAt_inside (within : i.toNat < sqEntries.toNat) : m.Inside (sqeAt i) := by
  have sqes := covers.sqes
  change i.toNat * 64 + 64 ≤ m.mmapSqesSize.toNat
  omega

include sqSized

theorem flush_inside (count : Nat) (f : Flush) :
    ∀ a ∈ flushAccesses m (sqEntries - 1) count f, m.Inside a := by
  induction count generalizing f with
  | zero => exact nofun
  | succ count ih =>
    simp only [flushAccesses, List.forall_mem_cons]
    constructor
    · exact sqArrayAt_inside covers (sqSized.masked_lt _)
    · exact ih _

theorem wait_inside (uring : UringQueue) (sq : SqRing α) (served : sq.sqMask = sqEntries - 1) :
    ∀ a ∈ waitAccesses m uring sq, m.Inside a := by
  have fields := covers.fields
  simp only [List.forall_mem_cons] at fields
  obtain ⟨head, tail, mask, -⟩ := fields
  intro a member
  rw [waitAccesses, served] at member
  simp only [List.mem_append, List.mem_cons, List.not_mem_nil, or_false] at member
  rcases member with ((rfl | rfl) | looped) | rfl
  · exact mask
  · exact tail
  · split at looped
    · rcases List.mem_append.mp looped with stored | published
      · exact flush_inside covers sqSized _ _ a stored
      · cases List.mem_singleton.mp published
        exact tail
    · cases looped
  · exact head

theorem newSubmission_inside (uring : UringQueue) (sq : SqRing α)
    (served : sq.sqMask = sqEntries - 1) :
    ∀ a ∈ newSubmissionAccesses m uring sq, m.Inside a := by
  have fields := covers.fields
  simp only [List.forall_mem_cons] at fields
  obtain ⟨head, -, mask, entries, -⟩ := fields
  simp only [newSubmissionAccesses, uringNewSubmission, served]
  split
  · simp only [List.append_nil, List.forall_mem_cons]
    exact ⟨head, entries, nofun⟩
  · rename_i i found
    split at found
    · cases found
      simp only [List.cons_append, List.nil_append, List.forall_mem_cons]
      exact ⟨head, entries, mask, sqeAt_inside covers (sqSized.masked_lt _), nofun⟩
    · cases found

omit sqSized
include cqSized

theorem result_inside (cq : CqRing β) (served : cq.cqMask = cqEntries - 1) :
    ∀ a ∈ resultAccesses m cq, m.Inside a := by
  have fields := covers.fields
  simp only [List.forall_mem_cons] at fields
  obtain ⟨-, -, -, -, head, tail, mask, -⟩ := fields
  simp only [resultAccesses, uringResult, served]
  split
  · simp only [List.append_nil, List.forall_mem_cons]
    exact ⟨head, tail, nofun⟩
  · rename_i i found
    split at found
    · cases found
    · cases found
      simp only [List.cons_append, List.nil_append, List.forall_mem_cons]
      exact ⟨head, tail, mask, cqeAt_inside covers (cqSized.masked_lt _), nofun⟩

omit cqSized

theorem advance_inside : ∀ a ∈ advanceAccesses m, m.Inside a := by
  have fields := covers.fields
  simp only [List.forall_mem_cons] at fields
  obtain ⟨-, -, -, -, head, -⟩ := fields
  simp only [advanceAccesses, List.forall_mem_cons]
  exact ⟨head, head, nofun⟩

include sqSized cqSized

theorem visit_inside (uring : UringQueue) (visit : Visit α β)
    (sqServed : visit.sq.sqMask = sqEntries - 1) (cqServed : visit.cq.cqMask = cqEntries - 1) :
    ∀ a ∈ visit.accesses m uring, m.Inside a := by
  unfold Visit.accesses
  cases visit.op with
  | newSubmission => exact newSubmission_inside covers sqSized uring _ sqServed
  | wait count => exact wait_inside covers sqSized uring _ sqServed
  | result => exact result_inside covers cqSized _ cqServed
  | advance => exact advance_inside covers

theorem accesses_inside (uring : UringQueue) (run : List (Visit α β))
    (served : ∀ visit ∈ run,
      visit.sq.sqMask = sqEntries - 1 ∧ visit.cq.cqMask = cqEntries - 1) :
    ∀ a ∈ accesses m uring run, m.Inside a := by
  induction run generalizing uring with
  | nil => exact nofun
  | cons visit later ih =>
    obtain ⟨⟨sqServed, cqServed⟩, others⟩ := List.forall_mem_cons.mp served
    intro a member
    rcases List.mem_append.mp member with now | next
    · exact visit_inside covers sqSized cqSized uring visit sqServed cqServed a now
    · exact ih _ others a next

end Runs

/-- Ring mappings cover every access. Neither `int` loses anything of the length it is
computed for, and whatever the kernel leaves in the counters, no operation of a run
touches a byte outside the two mappings. -/
theorem ring_mappings_cover {α β : Type} (p : IoUringParams) (valid : p.Valid) :
    (sringSz p).toInt = p.sqOff.array.toNat + p.sqEntries.toNat * 4 ∧
    (cringSz p).toInt = p.cqOff.cqes.toNat + p.cqEntries.toNat * 16 ∧
    ∀ (uring : UringQueue) (run : List (Visit α β)),
      (∀ visit ∈ run,
        visit.sq.sqMask = p.sqEntries - 1 ∧ visit.cq.cqMask = p.cqEntries - 1) →
      ∀ a ∈ accesses (uringInit p) uring run, (uringInit p).Inside a := by
  obtain ⟨sqBits, sqSized, -⟩ := valid.sq_sized
  obtain ⟨cqBits, cqSized, -⟩ := valid.cq_sized
  refine ⟨valid.sringSz_toInt, valid.cringSz_toInt, ?_⟩
  intro uring run served
  exact accesses_inside (uringInit_covers valid) sqSized cqSized uring run served

/-- Sixteen entries, and counters that wrap around while an entry is published. -/
theorem ring_mappings_cover_sixteen :
    ∃ p : IoUringParams, p = ⟨16, 32, ⟨0, 64, 256, 264, 832⟩, ⟨128, 192, 260, 268, 320⟩⟩ ∧
      (sringSz p).toInt = 896 ∧
      ∀ a ∈ accesses (uringInit p) ⟨0xFFFFFFFE, 0xFFFFFFFF⟩
        [⟨.newSubmission, ⟨0xFFFFFFF0, 5, 15, 16, id, id⟩, ⟨0, 0, 31, 32, id⟩⟩,
          ⟨.wait 1, ⟨0xFFFFFFF0, 0xFFFFFFFF, 15, 16, id, id⟩, ⟨0, 0, 31, 32, id⟩⟩,
          ⟨.result, ⟨0, 0, 15, 16, id, id⟩, ⟨0xFFFFFFFF, 0, 31, 32, id⟩⟩],
        (uringInit p).Inside a := by
  have valid : IoUringParams.Valid ⟨16, 32, ⟨0, 64, 256, 264, 832⟩, ⟨128, 192, 260, 268, 320⟩⟩ := by
    constructor
    · exact ⟨4, by decide, by decide⟩
    · exact ⟨5, by decide, by decide⟩
    · decide
    · decide
    · simp
  obtain ⟨sring, -, inside⟩ := ring_mappings_cover _ valid
  refine ⟨_, rfl, sring, inside _ _ ?_⟩
  have sqMask : (15 : UInt32) = 16 - 1 := by decide
  have cqMask : (31 : UInt32) = 32 - 1 := by decide
  simp only [List.forall_mem_cons]
  exact ⟨⟨sqMask, cqMask⟩, ⟨sqMask, cqMask⟩, ⟨sqMask, cqMask⟩, nofun⟩

end MinLinux.Uring
