import MinLinux.Bytes
import MinLinux.Uring.Completion
import MinLinux.Uring.Mapping
import MinLinux.Uring.Submission

/-! The ring operations on the bytes of the two mappings. All fields of both rings and
the completion entries lie in one mapping, and each operation loads and stores through
the pointers `uring_init` has set. Read through the same pointers, the bytes are the
rings of the other modules. -/
namespace MinLinux.Uring.Mapped
open Bytes MinLinux.Ring

/-- The two mappings. -/
structure Mappings where
  ring : Memory
  sqes : Memory

abbrev Sqe := Block 64
abbrev Cqe := Block 16

def word (block : Block 4) : UInt32 := UInt32.ofNat (ofLittleEndian block)

def load32 (mem : Memory) (p : Nat) : Option UInt32 := (mem.load p 4).map word

def store32 (mem : Memory) (p : Nat) (value : UInt32) : Option Memory :=
  mem.store p (littleEndian 4 value.toNat)

variable (m : Mapping)

def uringResult (mem : Mappings) : Option (Option UInt32) := do
  let head ← load32 mem.ring m.cqHead.toNat
  let tail ← load32 mem.ring m.cqTail.toNat
  if head = tail then pure none
  else
    let mask ← load32 mem.ring m.cqMask.toNat
    pure (some (head &&& mask))

def uringNewSubmission (uring : UringQueue) (mem : Mappings) :
    Option (Option UInt32 × UringQueue) := do
  let head ← load32 mem.ring m.sqHead.toNat
  let next := uring.sqListTail + 1
  let entries ← load32 mem.ring m.sqEntries.toNat
  if next - head ≤ entries then
    let mask ← load32 mem.ring m.sqMask.toNat
    pure (some (uring.sqListTail &&& mask), { uring with sqListTail := next })
  else pure (none, uring)

/-- The loop of `uring_wait`, and its counters when it ends. -/
def flush (mask : UInt32) : Nat → Memory → UInt32 → UInt32 → Option (Memory × UInt32 × UInt32)
  | 0, ring, sqTail, sqListHead => some (ring, sqTail, sqListHead)
  | toSubmit + 1, ring, sqTail, sqListHead => do
      let ring ← store32 ring (m.sqArrayAt (sqTail &&& mask)).offset (sqListHead &&& mask)
      flush mask toSubmit ring (sqTail + 1) (sqListHead + 1)

def uringWait (uring : UringQueue) (mem : Mappings) (count : UInt32) :
    Option (Enter × UringQueue × Mappings) := do
  let mask ← load32 mem.ring m.sqMask.toNat
  let sqTail ← load32 mem.ring m.sqTail.toNat
  let toSubmit := uring.sqListTail - uring.sqListHead
  if 0 < toSubmit then
    let (ring, sqTail, sqListHead) ←
      flush m mask toSubmit.toNat mem.ring sqTail uring.sqListHead
    let ring ← store32 ring m.sqTail.toNat sqTail
    let sqHead ← load32 ring m.sqHead.toNat
    pure (⟨sqTail - sqHead, count⟩, { uring with sqListHead := sqListHead },
      { mem with ring := ring })
  else
    let sqHead ← load32 mem.ring m.sqHead.toNat
    pure (⟨sqTail - sqHead, count⟩, uring, mem)

/-- What a process and the kernel share, with the private counters of the process. The
histories and the place in the loop are those of the machines for either ring. -/
structure State where
  uring : UringQueue
  mem : Mappings
  held : List UInt32
  budget : Nat
  accepted : List (Option Sqe)
  consumed : List Sqe
  posted : List Cqe
  retired : Nat
  pc : Completion.Pc
  handled : List Cqe

inductive Action where
  | submission (a : Submission.Action Sqe)
  | completion (a : Completion.Action Cqe)

/-- The kernel reads one entry through the index array. -/
def consumeEntry (mem : Mappings) : Option (Sqe × Mappings) := do
  let head ← load32 mem.ring m.sqHead.toNat
  let mask ← load32 mem.ring m.sqMask.toNat
  let index ← load32 mem.ring (m.sqArrayAt (head &&& mask)).offset
  let entry ← mem.sqes.load (Mapping.sqeAt index).offset 64
  let ring ← store32 mem.ring m.sqHead.toNat (head + 1)
  pure (entry, { mem with ring := ring })

/-- The kernel writes the entry before it moves the tail. -/
def post (mem : Mappings) (cqe : Cqe) : Option Mappings := do
  let tail ← load32 mem.ring m.cqTail.toNat
  let mask ← load32 mem.ring m.cqMask.toNat
  let ring ← mem.ring.store (m.cqeAt (tail &&& mask)).offset cqe
  let ring ← store32 ring m.cqTail.toNat (tail + 1)
  pure { mem with ring := ring }

def submission (s : State) : Submission.Action Sqe → Option State
  | .newSubmission => do
      let (sqe, uring) ← uringNewSubmission m s.uring s.mem
      match sqe with
      | none => some { s with uring := uring }
      | some sqe =>
          some { s with
            uring := uring
            held := s.held ++ [sqe]
            accepted := s.accepted ++ [none] }
  | .fill i entry => do
      let sqe ← s.held[i]?
      let sqes ← s.mem.sqes.store (Mapping.sqeAt sqe).offset entry
      some { s with
        mem := { s.mem with sqes := sqes }
        accepted := s.accepted.set (s.accepted.length - s.held.length + i) (some entry) }
  | .wait count =>
      if s.accepted.all Option.isSome then do
        let (enter, uring, mem) ← uringWait m s.uring s.mem count
        some { s with uring := uring, mem := mem, held := [], budget := enter.toSubmit.toNat }
      else none
  | .consume => do
      let head ← load32 s.mem.ring m.sqHead.toNat
      let tail ← load32 s.mem.ring m.sqTail.toNat
      if 0 < s.budget ∧ head ≠ tail then
        let (entry, mem) ← consumeEntry m s.mem
        some { s with mem := mem, budget := s.budget - 1, consumed := s.consumed ++ [entry] }
      else none

def completion (s : State) : Completion.Action Cqe → Option State
  | .post cqe => do
      let head ← load32 s.mem.ring m.cqHead.toNat
      let tail ← load32 s.mem.ring m.cqTail.toNat
      let entries ← load32 s.mem.ring m.cqEntries.toNat
      if tail - head < entries then
        let mem ← post m s.mem cqe
        some { s with mem := mem, posted := s.posted ++ [cqe] }
      else none
  | .loadHead =>
      match s.pc with
      | .polling => do
          let head ← load32 s.mem.ring m.cqHead.toNat
          some { s with pc := .resultHead head }
      | _ => none
  | .loadTail =>
      match s.pc with
      | .resultHead head => do
          let tail ← load32 s.mem.ring m.cqTail.toNat
          if head = tail then some { s with pc := .polling }
          else
            let mask ← load32 s.mem.ring m.cqMask.toNat
            let entry ← s.mem.ring.load (m.cqeAt (head &&& mask)).offset 16
            some { s with pc := .handling (head &&& mask), handled := s.handled ++ [entry] }
      | _ => none
  | .finishHandle =>
      match s.pc with
      | .handling cqe => do
          let head ← load32 s.mem.ring m.cqHead.toNat
          some { s with pc := .advanceHead cqe head }
      | _ => none
  | .storeHead =>
      match s.pc with
      | .advanceHead _ head => do
          let ring ← store32 s.mem.ring m.cqHead.toNat (head + 1)
          some { s with
            mem := { s.mem with ring := ring }
            pc := .polling
            retired := s.retired + 1 }
      | _ => none

def step (s : State) : Action → Option State
  | .submission a => submission m s a
  | .completion a => completion m s a

/-- What lies in the mapping of the rings. -/
inductive Object where
  | sqHead
  | sqTail
  | sqMask
  | sqEntries
  | sqArray
  | cqHead
  | cqTail
  | cqMask
  | cqEntries
  | cqes
deriving DecidableEq

def Object.start : Object → Nat
  | .sqHead => m.sqHead.toNat
  | .sqTail => m.sqTail.toNat
  | .sqMask => m.sqMask.toNat
  | .sqEntries => m.sqEntries.toNat
  | .sqArray => m.sqArray.toNat
  | .cqHead => m.cqHead.toNat
  | .cqTail => m.cqTail.toNat
  | .cqMask => m.cqMask.toNat
  | .cqEntries => m.cqEntries.toNat
  | .cqes => m.cqes.toNat

/-- Every object but the arrays is one word. -/
def Object.isField : Object → Bool
  | .sqArray | .cqes => false
  | _ => true

def Object.size (sqEntries cqEntries : UInt32) : Object → Nat
  | .sqArray => sqEntries.toNat * 4
  | .cqes => cqEntries.toNat * 16
  | _ => 4

/-- The bytes of an access to an object. -/
def Object.Holds (sqEntries cqEntries : UInt32) (o : Object) (p n : Nat) : Prop :=
  o.start m ≤ p ∧ p + n ≤ o.start m + o.size sqEntries cqEntries

/-- The mappings cover all objects, and no two objects overlap. -/
structure Layout (sqEntries cqEntries : UInt32) : Prop where
  covers : m.Covers sqEntries cqEntries
  apart : ∀ a b : Object, a ≠ b →
    a.start m + a.size sqEntries cqEntries ≤ b.start m ∨
      b.start m + b.size sqEntries cqEntries ≤ a.start m

/-- The mappings are as long as `uring_init` has asked for. -/
structure Sizes (mem : Mappings) : Prop where
  ring : mem.ring.size = m.mmapRingSize.toNat
  sqes : mem.sqes.size = m.mmapSqesSize.toNat

def field (ring : Memory) (o : Object) : UInt32 := word (ring.view (o.start m) 4)

/-- The rings as they are read through the pointers. Their arrays end with the last
entry. -/
def sqRing (entries : UInt32) (mem : Mappings) : SqRing Sqe where
  sqHead := field m mem.ring .sqHead
  sqTail := field m mem.ring .sqTail
  sqMask := field m mem.ring .sqMask
  sqEntries := field m mem.ring .sqEntries
  sqArray i := if i < entries then word (mem.ring.view (m.sqArrayAt i).offset 4) else 0
  sqes i := mem.sqes.view (Mapping.sqeAt i).offset 64

def cqRing (entries : UInt32) (mem : Mappings) : CqRing Cqe where
  cqHead := field m mem.ring .cqHead
  cqTail := field m mem.ring .cqTail
  cqMask := field m mem.ring .cqMask
  cqEntries := field m mem.ring .cqEntries
  cqes i := if i < entries then mem.ring.view (m.cqeAt i).offset 16 else fun _ => 0

/-- Either ring after a store to a field of one of them. -/
def putSq (value : UInt32) (sq : SqRing α) : Object → SqRing α
  | .sqHead => { sq with sqHead := value }
  | .sqTail => { sq with sqTail := value }
  | .sqMask => { sq with sqMask := value }
  | .sqEntries => { sq with sqEntries := value }
  | _ => sq

def putCq (value : UInt32) (cq : CqRing α) : Object → CqRing α
  | .cqHead => { cq with cqHead := value }
  | .cqTail => { cq with cqTail := value }
  | .cqMask => { cq with cqMask := value }
  | .cqEntries => { cq with cqEntries := value }
  | _ => cq

section Objects
variable {m : Mapping} {sqEntries cqEntries : UInt32}

theorem word_littleEndian (value : UInt32) : word (littleEndian 4 value.toNat) = value := by
  have small := value.toNat_lt
  rw [word, ofLittleEndian_littleEndian]
  apply UInt32.toNat_inj.mp
  rw [UInt32.toNat_ofNat']
  omega

theorem load32_eq {mem : Memory} (inside : p + 4 ≤ mem.size) :
    load32 mem p = some (word (mem.view p 4)) := by
  rw [load32, Memory.load_eq inside]
  rfl

theorem store32_eq {mem : Memory} (inside : p + 4 ≤ mem.size) (value : UInt32) :
    store32 mem p value = some (mem.write p (littleEndian 4 value.toNat)) :=
  Memory.store_eq inside

theorem Object.field_size {o : Object} (isField : o.isField = true) :
    o.size sqEntries cqEntries = 4 := by
  cases o <;> first | rfl | cases isField

/-- A field is all of its object. -/
theorem Object.field_holds {o : Object} (isField : o.isField = true) :
    o.Holds m sqEntries cqEntries (o.start m) 4 :=
  ⟨Nat.le_refl _, Nat.le_of_eq (congrArg (o.start m + ·) (field_size isField).symm)⟩

theorem sqArray_holds (within : i < sqEntries) :
    Object.sqArray.Holds m sqEntries cqEntries (m.sqArrayAt i).offset 4 := by
  have below := UInt32.lt_iff_toNat_lt.mp within
  change m.sqArray.toNat ≤ m.sqArray.toNat + i.toNat * 4 ∧
    m.sqArray.toNat + i.toNat * 4 + 4 ≤ m.sqArray.toNat + sqEntries.toNat * 4
  omega

theorem cqes_holds (within : i < cqEntries) :
    Object.cqes.Holds m sqEntries cqEntries (m.cqeAt i).offset 16 := by
  have below := UInt32.lt_iff_toNat_lt.mp within
  change m.cqes.toNat ≤ m.cqes.toNat + i.toNat * 16 ∧
    m.cqes.toNat + i.toNat * 16 + 16 ≤ m.cqes.toNat + cqEntries.toNat * 16
  omega

/-- Elements of an array are apart. -/
theorem elements_apart (differ : j ≠ i) (base size : Nat) :
    base + j.toNat * size + size ≤ base + i.toNat * size ∨
      base + i.toNat * size + size ≤ base + UInt32.toNat j * size := by
  have distinct : j.toNat ≠ i.toNat := mt UInt32.toNat_inj.mp differ
  rcases Nat.lt_or_gt_of_ne distinct with before | behind
  · have product := Nat.mul_le_mul_right size (Nat.succ_le_of_lt before)
    rw [Nat.succ_mul] at product
    exact .inl (by omega)
  · have product := Nat.mul_le_mul_right size (Nat.succ_le_of_lt behind)
    rw [Nat.succ_mul] at product
    exact .inr (by omega)

end Objects

section Stores
variable {m : Mapping} {sqEntries cqEntries : UInt32} (layout : Layout m sqEntries cqEntries)
include layout

/-- A store to one object is not seen in another. -/
theorem view_other (mem : Memory) {a b : Object} (v : Block n) (differ : a ≠ b)
    (read : a.Holds m sqEntries cqEntries q k) (stored : b.Holds m sqEntries cqEntries p n) :
    (mem.write p v).view q k = mem.view q k := by
  obtain ⟨low, high⟩ := read
  obtain ⟨low', high'⟩ := stored
  apply Memory.view_write_apart
  rcases layout.apart a b differ with before | behind
  · exact .inl (by omega)
  · exact .inr (by omega)

theorem field_other (mem : Memory) {a b : Object} (v : Block n) (isField : a.isField = true)
    (differ : a ≠ b) (stored : b.Holds m sqEntries cqEntries p n) :
    field m (mem.write p v) a = field m mem a :=
  congrArg word (view_other layout mem v differ (Object.field_holds isField) stored)

theorem field_put (mem : Memory) {a b : Object} (value : UInt32) (isField : a.isField = true)
    (stored : b.isField = true) :
    field m (mem.write (b.start m) (littleEndian 4 value.toNat)) a =
      if a = b then value else field m mem a := by
  split
  · rename_i same
    rw [same, field, Memory.view_write, word_littleEndian]
  · rename_i differ
    exact field_other layout mem _ isField differ (Object.field_holds stored)

theorem sqRing_put (mem : Mappings) (o : Object) (isField : o.isField = true) (value : UInt32) :
    sqRing m sqEntries
        { mem with ring := mem.ring.write (o.start m) (littleEndian 4 value.toNat) } =
      putSq value (sqRing m sqEntries mem) o := by
  have array : ∀ i < sqEntries,
      (mem.ring.write (o.start m) (littleEndian 4 value.toNat)).view (m.sqArrayAt i).offset 4 =
        mem.ring.view (m.sqArrayAt i).offset 4 := by
    intro i within
    apply view_other layout mem.ring _ _ (sqArray_holds within) (Object.field_holds isField)
    rintro rfl
    cases isField
  have fields : ∀ a : Object, a.isField = true →
      field m (mem.ring.write (o.start m) (littleEndian 4 value.toNat)) a =
        if a = o then value else field m mem.ring a :=
    fun a read => field_put layout mem.ring value read isField
  cases o
  case sqArray => cases isField
  case cqes => cases isField
  all_goals
    simp +contextual only [sqRing, putSq, fields .sqHead rfl, fields .sqTail rfl,
      fields .sqMask rfl, fields .sqEntries rfl, reduceCtorEq, if_true, if_false, array]

theorem cqRing_put (mem : Mappings) (o : Object) (isField : o.isField = true) (value : UInt32) :
    cqRing m cqEntries
        { mem with ring := mem.ring.write (o.start m) (littleEndian 4 value.toNat) } =
      putCq value (cqRing m cqEntries mem) o := by
  have entries : ∀ i < cqEntries,
      (mem.ring.write (o.start m) (littleEndian 4 value.toNat)).view (m.cqeAt i).offset 16 =
        mem.ring.view (m.cqeAt i).offset 16 := by
    intro i within
    apply view_other layout mem.ring _ _ (cqes_holds within) (Object.field_holds isField)
    rintro rfl
    cases isField
  have fields : ∀ a : Object, a.isField = true →
      field m (mem.ring.write (o.start m) (littleEndian 4 value.toNat)) a =
        if a = o then value else field m mem.ring a :=
    fun a read => field_put layout mem.ring value read isField
  cases o
  case sqArray => cases isField
  case cqes => cases isField
  all_goals
    simp +contextual only [cqRing, putCq, fields .cqHead rfl, fields .cqTail rfl,
      fields .cqMask rfl, fields .cqEntries rfl, reduceCtorEq, if_true, if_false, entries]

theorem sqRing_sqArray (mem : Mappings) (within : i < sqEntries) (value : UInt32) :
    sqRing m sqEntries
        { mem with
          ring := mem.ring.write (m.sqArrayAt i).offset (littleEndian 4 value.toNat) } =
      { sqRing m sqEntries mem with
        sqArray := Function.update (sqRing m sqEntries mem).sqArray i value } := by
  have fields : ∀ a : Object, a.isField = true → a ≠ .sqArray →
      field m (mem.ring.write (m.sqArrayAt i).offset (littleEndian 4 value.toNat)) a =
        field m mem.ring a :=
    fun a read differ => field_other layout mem.ring _ read differ (sqArray_holds within)
  simp only [sqRing, fields .sqHead rfl, fields .sqTail rfl, fields .sqMask rfl,
    fields .sqEntries rfl, ne_eq, reduceCtorEq, not_false_eq_true, SqRing.mk.injEq, true_and,
    and_true]
  funext j
  by_cases same : j = i
  · rw [same, Function.update_self, if_pos within, Memory.view_write, word_littleEndian]
  · rw [Function.update_of_ne same]
    split
    · exact congrArg word (Memory.view_write_apart _ _ (elements_apart same m.sqArray.toNat 4))
    · rfl

theorem cqRing_sqArray (mem : Mappings) (within : i < sqEntries) (value : UInt32) :
    cqRing m cqEntries
        { mem with
          ring := mem.ring.write (m.sqArrayAt i).offset (littleEndian 4 value.toNat) } =
      cqRing m cqEntries mem := by
  have fields : ∀ a : Object, a.isField = true → a ≠ .sqArray →
      field m (mem.ring.write (m.sqArrayAt i).offset (littleEndian 4 value.toNat)) a =
        field m mem.ring a :=
    fun a read differ => field_other layout mem.ring _ read differ (sqArray_holds within)
  simp only [cqRing, fields .cqHead rfl, fields .cqTail rfl, fields .cqMask rfl,
    fields .cqEntries rfl, ne_eq, reduceCtorEq, not_false_eq_true, CqRing.mk.injEq, true_and]
  funext j
  split
  · exact view_other layout mem.ring _ (by decide) (cqes_holds ‹_›) (sqArray_holds within)
  · rfl

theorem cqRing_cqes (mem : Mappings) (within : i < cqEntries) (entry : Cqe) :
    cqRing m cqEntries { mem with ring := mem.ring.write (m.cqeAt i).offset entry } =
      { cqRing m cqEntries mem with
        cqes := Function.update (cqRing m cqEntries mem).cqes i entry } := by
  have fields : ∀ a : Object, a.isField = true → a ≠ .cqes →
      field m (mem.ring.write (m.cqeAt i).offset entry) a = field m mem.ring a :=
    fun a read differ => field_other layout mem.ring _ read differ (cqes_holds within)
  simp only [cqRing, fields .cqHead rfl, fields .cqTail rfl, fields .cqMask rfl,
    fields .cqEntries rfl, ne_eq, reduceCtorEq, not_false_eq_true, CqRing.mk.injEq, true_and]
  funext j
  by_cases same : j = i
  · rw [same, Function.update_self, if_pos within]
    exact Memory.view_write _ _ _
  · rw [Function.update_of_ne same]
    split
    · exact Memory.view_write_apart _ _ (elements_apart same m.cqes.toNat 16)
    · rfl

theorem sqRing_cqes (mem : Mappings) (within : i < cqEntries) (entry : Cqe) :
    sqRing m sqEntries { mem with ring := mem.ring.write (m.cqeAt i).offset entry } =
      sqRing m sqEntries mem := by
  have fields : ∀ a : Object, a.isField = true → a ≠ .cqes →
      field m (mem.ring.write (m.cqeAt i).offset entry) a = field m mem.ring a :=
    fun a read differ => field_other layout mem.ring _ read differ (cqes_holds within)
  simp only [sqRing, fields .sqHead rfl, fields .sqTail rfl, fields .sqMask rfl,
    fields .sqEntries rfl, ne_eq, reduceCtorEq, not_false_eq_true, SqRing.mk.injEq, true_and,
    and_true]
  funext j
  split
  · exact congrArg word
      (view_other layout mem.ring _ (by decide) (sqArray_holds ‹_›) (cqes_holds within))
  · rfl

omit layout in
theorem sqRing_sqes (mem : Mappings) (i : UInt32) (entry : Sqe) :
    sqRing m sqEntries { mem with sqes := mem.sqes.write (Mapping.sqeAt i).offset entry } =
      { sqRing m sqEntries mem with
        sqes := Function.update (sqRing m sqEntries mem).sqes i entry } := by
  simp only [sqRing, SqRing.mk.injEq, true_and]
  funext j
  by_cases same : j = i
  · rw [same, Function.update_self]
    exact Memory.view_write _ _ _
  · rw [Function.update_of_ne same]
    have apart := elements_apart same 0 64
    simp only [Nat.zero_add] at apart
    exact Memory.view_write_apart _ _ apart

end Stores
end MinLinux.Uring.Mapped
