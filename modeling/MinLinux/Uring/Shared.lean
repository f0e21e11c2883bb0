import MinLinux.Uring.Mapped

/-! Both rings share one mapping, and the process and the kernel work on its bytes. On a
layout without overlaps no operation on one ring disturbs the other, no access leaves
its mapping, and every run is a run of the two ring machines side by side. -/
namespace MinLinux.Uring.Mapped
open Bytes MinLinux.Ring

section Operations
variable {m : Mapping} {sqEntries cqEntries : UInt32} {mem : Mappings}
  (layout : Layout m sqEntries cqEntries) (sizes : Sizes m mem)
include layout sizes

theorem field_inside {o : Object} (isField : o.isField = true) :
    o.start m + 4 ≤ mem.ring.size := by
  have fields := layout.covers.fields
  rw [sizes.ring]
  cases o
  case sqArray => cases isField
  case cqes => cases isField
  all_goals exact fields _ (by simp)

theorem load_field {o : Object} (isField : o.isField = true) :
    load32 mem.ring (o.start m) = some (field m mem.ring o) :=
  load32_eq (field_inside layout sizes isField)

theorem store_field {o : Object} (isField : o.isField = true) (value : UInt32) :
    store32 mem.ring (o.start m) value =
      some (mem.ring.write (o.start m) (littleEndian 4 value.toNat)) :=
  store32_eq (field_inside layout sizes isField) value

theorem sqArray_inside (within : i < sqEntries) : (m.sqArrayAt i).offset + 4 ≤ mem.ring.size := by
  rw [sizes.ring]
  exact sqArrayAt_inside layout.covers (UInt32.lt_iff_toNat_lt.mp within)

theorem cqes_inside (within : i < cqEntries) : (m.cqeAt i).offset + 16 ≤ mem.ring.size := by
  rw [sizes.ring]
  exact cqeAt_inside layout.covers (UInt32.lt_iff_toNat_lt.mp within)

theorem sqes_inside (within : i < sqEntries) :
    (Mapping.sqeAt i).offset + 64 ≤ mem.sqes.size := by
  rw [sizes.sqes]
  exact sqeAt_inside layout.covers (UInt32.lt_iff_toNat_lt.mp within)

theorem uringResult_eq :
    uringResult m mem = some (Uring.uringResult (cqRing m cqEntries mem)) := by
  have head := load_field layout sizes (o := .cqHead) rfl
  have tail := load_field layout sizes (o := .cqTail) rfl
  have mask := load_field layout sizes (o := .cqMask) rfl
  simp only [Object.start] at head tail mask
  simp only [uringResult, head, tail, mask, Option.bind_eq_bind, Option.bind_some,
    Uring.uringResult, cqRing]
  exact (apply_ite some _ _ _).symm

theorem uringNewSubmission_eq (uring : UringQueue) :
    uringNewSubmission m uring mem =
      some (Uring.uringNewSubmission uring (sqRing m sqEntries mem)) := by
  have head := load_field layout sizes (o := .sqHead) rfl
  have entries := load_field layout sizes (o := .sqEntries) rfl
  have mask := load_field layout sizes (o := .sqMask) rfl
  simp only [Object.start] at head entries mask
  simp only [uringNewSubmission, head, entries, mask, Option.bind_eq_bind, Option.bind_some,
    Uring.uringNewSubmission, sqRing]
  exact (apply_ite some _ _ _).symm

end Operations

/-- The state of the mappings that an operation on the submission ring leaves. -/
structure SubmissionOnly (m : Mapping) (sqEntries cqEntries : UInt32) (mem : Mappings)
    (sq : SqRing Sqe) (mem' : Mappings) : Prop where
  sizes : Sizes m mem'
  sq : sqRing m sqEntries mem' = sq
  cq : cqRing m cqEntries mem' = cqRing m cqEntries mem

section Wait
variable {m : Mapping} {sqEntries cqEntries : UInt32} {bits : Nat}
  (layout : Layout m sqEntries cqEntries) (sized : Sized sqEntries mask bits)
include layout sized

/-- The stores of the loop. -/
theorem flush_eq {mem : Mappings} (sizes : Sizes m mem) (count : Nat) (sqTail sqListHead : UInt32) :
    ∃ ring, flush m mask count mem.ring sqTail sqListHead =
        some (ring, (Uring.flush mask count ⟨sqTail, sqListHead, (sqRing m sqEntries mem).sqArray⟩).sqTail,
          (Uring.flush mask count ⟨sqTail, sqListHead, (sqRing m sqEntries mem).sqArray⟩).sqListHead) ∧
      SubmissionOnly m sqEntries cqEntries mem
        { sqRing m sqEntries mem with
          sqArray := (Uring.flush mask count
            ⟨sqTail, sqListHead, (sqRing m sqEntries mem).sqArray⟩).sqArray }
        { mem with ring := ring } := by
  induction count generalizing mem sqTail sqListHead with
  | zero => exact ⟨mem.ring, rfl, sizes, rfl, rfl⟩
  | succ count ih =>
    have within : sqTail &&& mask < sqEntries := UInt32.lt_iff_toNat_lt.mpr (sized.masked_lt _)
    have stored := store32_eq (sqArray_inside layout sizes within) (sqListHead &&& mask)
    have next := sqRing_sqArray layout mem within (sqListHead &&& mask)
    have other := cqRing_sqArray layout mem within (sqListHead &&& mask)
    have written : Sizes m { mem with
        ring := mem.ring.write (m.sqArrayAt (sqTail &&& mask)).offset
          (littleEndian 4 (sqListHead &&& mask).toNat) } := ⟨sizes.ring, sizes.sqes⟩
    obtain ⟨ring, ran, kept⟩ := ih written (sqTail + 1) (sqListHead + 1)
    rw [next] at ran kept
    refine ⟨ring, ?_, kept.sizes, kept.sq, kept.cq.trans other⟩
    rw [flush, stored]
    exact ran

theorem uringWait_eq {mem : Mappings} (sizes : Sizes m mem)
    (masked : (sqRing m sqEntries mem).sqMask = mask) (uring : UringQueue) (count : UInt32) :
    ∃ mem', uringWait m uring mem count =
        some ((Uring.uringWait uring (sqRing m sqEntries mem) count).1,
          (Uring.uringWait uring (sqRing m sqEntries mem) count).2.1, mem') ∧
      SubmissionOnly m sqEntries cqEntries mem
        (Uring.uringWait uring (sqRing m sqEntries mem) count).2.2 mem' := by
  subst masked
  have mask_loaded := load_field layout sizes (o := .sqMask) rfl
  have tail_loaded := load_field layout sizes (o := .sqTail) rfl
  change load32 mem.ring m.sqMask.toNat = some (sqRing m sqEntries mem).sqMask at mask_loaded
  change load32 mem.ring m.sqTail.toNat = some (sqRing m sqEntries mem).sqTail at tail_loaded
  simp only [uringWait, mask_loaded, tail_loaded, Option.bind_eq_bind, Option.bind_some,
    Uring.uringWait]
  split
  · obtain ⟨ring, ran, flushed⟩ := flush_eq layout sized sizes
      (uring.sqListTail - uring.sqListHead).toNat (sqRing m sqEntries mem).sqTail uring.sqListHead
    generalize Uring.flush (sqRing m sqEntries mem).sqMask (uring.sqListTail - uring.sqListHead).toNat
      ⟨(sqRing m sqEntries mem).sqTail, uring.sqListHead, (sqRing m sqEntries mem).sqArray⟩ = f
      at ran flushed
    have stored := store_field layout flushed.sizes (o := .sqTail) rfl f.sqTail
    have published := sqRing_put layout { mem with ring := ring } .sqTail rfl f.sqTail
    have other := cqRing_put layout { mem with ring := ring } .sqTail rfl f.sqTail
    rw [flushed.sq] at published
    have written : Sizes m { mem with
        ring := ring.write (Object.sqTail.start m) (littleEndian 4 f.sqTail.toNat) } :=
      ⟨flushed.sizes.ring, flushed.sizes.sqes⟩
    have head_loaded := load_field layout written (o := .sqHead) rfl
    change load32 _ m.sqHead.toNat = some (sqRing m sqEntries _).sqHead at head_loaded
    rw [published] at head_loaded
    change store32 ring m.sqTail.toNat _ = _ at stored
    simp only [ran, Option.bind_some, stored, head_loaded]
    exact ⟨_, rfl, ⟨flushed.sizes.ring, flushed.sizes.sqes⟩, published, other.trans flushed.cq⟩
  · have head_loaded := load_field layout sizes (o := .sqHead) rfl
    change load32 mem.ring m.sqHead.toNat = some (sqRing m sqEntries mem).sqHead at head_loaded
    rw [head_loaded]
    exact ⟨mem, rfl, sizes, rfl, rfl⟩

theorem consumeEntry_eq {mem : Mappings} (sizes : Sizes m mem)
    (masked : (sqRing m sqEntries mem).sqMask = mask)
    (index : (sqRing m sqEntries mem).sqArray ((sqRing m sqEntries mem).sqHead &&& mask) < sqEntries) :
    ∃ mem', consumeEntry m mem =
        some ((Submission.consumeEntry (sqRing m sqEntries mem)).1, mem') ∧
      SubmissionOnly m sqEntries cqEntries mem
        (Submission.consumeEntry (sqRing m sqEntries mem)).2 mem' := by
  subst masked
  have within : (sqRing m sqEntries mem).sqHead &&& (sqRing m sqEntries mem).sqMask < sqEntries :=
    UInt32.lt_iff_toNat_lt.mpr (sized.masked_lt _)
  have head_loaded := load_field layout sizes (o := .sqHead) rfl
  have mask_loaded := load_field layout sizes (o := .sqMask) rfl
  change load32 mem.ring m.sqHead.toNat = some (sqRing m sqEntries mem).sqHead at head_loaded
  change load32 mem.ring m.sqMask.toNat = some (sqRing m sqEntries mem).sqMask at mask_loaded
  have index_loaded := load32_eq (sqArray_inside layout sizes within)
  have element : (sqRing m sqEntries mem).sqArray
      ((sqRing m sqEntries mem).sqHead &&& (sqRing m sqEntries mem).sqMask) =
      word (mem.ring.view (m.sqArrayAt
        ((sqRing m sqEntries mem).sqHead &&& (sqRing m sqEntries mem).sqMask)).offset 4) :=
    if_pos within
  rw [← element] at index_loaded
  have entry_loaded := Memory.load_eq (sqes_inside layout sizes index)
  have stored := store_field layout sizes (o := .sqHead) rfl ((sqRing m sqEntries mem).sqHead + 1)
  change store32 mem.ring m.sqHead.toNat _ = _ at stored
  simp only [consumeEntry, head_loaded, mask_loaded, index_loaded, entry_loaded, stored,
    Option.bind_eq_bind, Option.bind_some]
  exact ⟨_, rfl, ⟨sizes.ring, sizes.sqes⟩, sqRing_put layout mem .sqHead rfl _,
    cqRing_put layout mem .sqHead rfl _⟩

end Wait

/-- The state of the mappings that an operation on the completion ring leaves. -/
structure CompletionOnly (m : Mapping) (sqEntries cqEntries : UInt32) (mem : Mappings)
    (cq : CqRing Cqe) (mem' : Mappings) : Prop where
  sizes : Sizes m mem'
  sq : sqRing m sqEntries mem' = sqRing m sqEntries mem
  cq : cqRing m cqEntries mem' = cq

section Post
variable {m : Mapping} {sqEntries cqEntries : UInt32} {bits : Nat} {mem : Mappings}
  (layout : Layout m sqEntries cqEntries) (sizes : Sizes m mem)
include layout sizes

theorem advance_eq (head : UInt32) :
    ∃ ring, store32 mem.ring m.cqHead.toNat (head + 1) = some ring ∧
      CompletionOnly m sqEntries cqEntries mem
        { cqRing m cqEntries mem with cqHead := head + 1 } { mem with ring := ring } :=
  ⟨_, store_field layout sizes (o := .cqHead) rfl (head + 1), ⟨sizes.ring, sizes.sqes⟩,
    sqRing_put layout mem .cqHead rfl _, cqRing_put layout mem .cqHead rfl _⟩

theorem post_eq (sized : Sized cqEntries (cqRing m cqEntries mem).cqMask bits) (cqe : Cqe) :
    ∃ mem', post m mem cqe = some mem' ∧
      CompletionOnly m sqEntries cqEntries mem
        { cqRing m cqEntries mem with
          cqes := Function.update (cqRing m cqEntries mem).cqes
            ((cqRing m cqEntries mem).cqTail &&& (cqRing m cqEntries mem).cqMask) cqe
          cqTail := (cqRing m cqEntries mem).cqTail + 1 } mem' := by
  have within : (cqRing m cqEntries mem).cqTail &&& (cqRing m cqEntries mem).cqMask < cqEntries :=
    UInt32.lt_iff_toNat_lt.mpr (sized.masked_lt _)
  have tail_loaded := load_field layout sizes (o := .cqTail) rfl
  have mask_loaded := load_field layout sizes (o := .cqMask) rfl
  change load32 mem.ring m.cqTail.toNat = some (cqRing m cqEntries mem).cqTail at tail_loaded
  change load32 mem.ring m.cqMask.toNat = some (cqRing m cqEntries mem).cqMask at mask_loaded
  have entry := cqRing_cqes layout mem within cqe
  have entry_other := sqRing_cqes layout mem within cqe
  have stored := Memory.store_eq (v := cqe) (cqes_inside layout sizes within)
  have written : Sizes m { mem with
      ring := mem.ring.write (m.cqeAt
        ((cqRing m cqEntries mem).cqTail &&& (cqRing m cqEntries mem).cqMask)).offset cqe } :=
    ⟨sizes.ring, sizes.sqes⟩
  have published := store_field layout written (o := .cqTail) rfl
    ((cqRing m cqEntries mem).cqTail + 1)
  have tail := cqRing_put layout { mem with ring := mem.ring.write (m.cqeAt
      ((cqRing m cqEntries mem).cqTail &&& (cqRing m cqEntries mem).cqMask)).offset cqe }
    .cqTail rfl ((cqRing m cqEntries mem).cqTail + 1)
  have tail_other := sqRing_put layout { mem with ring := mem.ring.write (m.cqeAt
      ((cqRing m cqEntries mem).cqTail &&& (cqRing m cqEntries mem).cqMask)).offset cqe }
    .cqTail rfl ((cqRing m cqEntries mem).cqTail + 1)
  change store32 _ m.cqTail.toNat _ = _ at published
  rw [entry] at tail
  simp only [post, tail_loaded, mask_loaded, stored, published, Option.bind_eq_bind,
    Option.bind_some]
  exact ⟨_, rfl, ⟨sizes.ring, sizes.sqes⟩, tail_other.trans entry_other, tail⟩

end Post

/-- The two machines side by side. -/
def ringsStep (t : Submission.State Sqe × Completion.State Cqe) :
    Action → Option (Submission.State Sqe × Completion.State Cqe)
  | .submission a => (Submission.step t.1 a).map fun sub => (sub, t.2)
  | .completion a => (Completion.step t.2 a).map fun comp => (t.1, comp)

/-- The rings a state stands for. -/
def rings (m : Mapping) (sqEntries cqEntries : UInt32) (s : State) :
    Submission.State Sqe × Completion.State Cqe :=
  (⟨s.uring, sqRing m sqEntries s.mem, s.held, s.budget, s.accepted, s.consumed⟩,
    ⟨⟨cqRing m cqEntries s.mem, s.posted, s.retired⟩, s.pc, s.handled⟩)

structure Inv (m : Mapping) (sqEntries cqEntries : UInt32) (sqBits cqBits : Nat) (s : State) :
    Prop where
  sizes : Sizes m s.mem
  sub : Submission.Inv sqBits (rings m sqEntries cqEntries s).1
  comp : Completion.Inv cqBits (rings m sqEntries cqEntries s).2

/-- An entry that is published has its index in the array. -/
theorem consumed_index {s : Submission.State α} (inv : Submission.Inv bits s)
    (behind : s.sq.sqHead ≠ s.sq.sqTail) :
    s.sq.sqArray (s.sq.sqHead &&& s.sq.sqMask) < s.sq.sqEntries := by
  obtain ⟨ready, -⟩ := Submission.consume_front inv behind
  have named := inv.sqArray _ (Nat.le_refl _) ready
  rw [inv.sqHead]
  exact named ▸ UInt32.lt_iff_toNat_lt.mpr (inv.sized.masked_lt _)

section Steps
variable {m : Mapping} {sqEntries cqEntries : UInt32} {sqBits cqBits : Nat} {s : State}
  (layout : Layout m sqEntries cqEntries)
  (sqSized : sqEntries = UInt32.ofNat (2 ^ sqBits)) (cqSized : cqEntries = UInt32.ofNat (2 ^ cqBits))
  (inv : Inv m sqEntries cqEntries sqBits cqBits s)
include layout inv

theorem newSubmission_mirrors :
    (submission m s .newSubmission).map (rings m sqEntries cqEntries) =
      ringsStep (rings m sqEntries cqEntries s) (.submission .newSubmission) := by
  have reserved := uringNewSubmission_eq layout inv.sizes s.uring
  rcases found : Uring.uringNewSubmission s.uring (sqRing m sqEntries s.mem) with ⟨_ | sqe, uring⟩
  · simp only [submission, reserved, found, Option.bind_eq_bind, Option.bind_some, ringsStep,
      Submission.step, Submission.newSubmission, rings, Option.map_some]
  · simp only [submission, reserved, found, Option.bind_eq_bind, Option.bind_some, ringsStep,
      Submission.step, Submission.newSubmission, rings, Option.map_some]

include sqSized in
theorem fill_mirrors (i : Nat) (entry : Sqe) :
    (submission m s (.fill i entry)).map (rings m sqEntries cqEntries) =
      ringsStep (rings m sqEntries cqEntries s) (.submission (.fill i entry)) := by
  cases pointer : s.held[i]? with
  | none => simp only [submission, pointer, Option.bind_eq_bind, Option.bind_none, ringsStep,
      Submission.step, rings, Option.map_none]
  | some sqe =>
    obtain ⟨position, same⟩ := List.getElem?_eq_some_iff.mp pointer
    have slotted := inv.sub.held i position
    have within : sqe < sqEntries := by
      rw [← same, sqSized, ← inv.sub.sized.entries_eq]
      change s.held[i] = _ at slotted
      rw [slotted]
      exact UInt32.lt_iff_toNat_lt.mpr (inv.sub.sized.masked_lt _)
    have stored := Memory.store_eq (v := entry) (sqes_inside layout inv.sizes within)
    have filled := @sqRing_sqes m sqEntries s.mem sqe entry
    simp only [submission, pointer, stored, Option.bind_eq_bind, Option.bind_some, ringsStep,
      Submission.step, Submission.fill, Submission.State.published, rings, Option.map_some, filled]
    rfl

include sqSized in
theorem wait_mirrors (count : UInt32) :
    (submission m s (.wait count)).map (rings m sqEntries cqEntries) =
      ringsStep (rings m sqEntries cqEntries s) (.submission (.wait count)) := by
  have sized : Sized sqEntries (sqRing m sqEntries s.mem).sqMask sqBits := by
    rw [sqSized, ← inv.sub.sized.entries_eq]
    exact inv.sub.sized
  obtain ⟨mem, ran, only⟩ := uringWait_eq layout sized inv.sizes rfl s.uring count
  by_cases filled : s.accepted.all Option.isSome = true
  · simp only [submission, filled, if_true, ran, Option.bind_eq_bind, Option.bind_some, ringsStep,
      Submission.step, Submission.wait, rings, Option.map_some, only.sq, only.cq]
  · simp only [submission, filled, ringsStep, Submission.step, rings]
    rfl

include sqSized in
theorem consume_mirrors :
    (submission m s .consume).map (rings m sqEntries cqEntries) =
      ringsStep (rings m sqEntries cqEntries s) (.submission .consume) := by
  have sized : Sized sqEntries (sqRing m sqEntries s.mem).sqMask sqBits := by
    rw [sqSized, ← inv.sub.sized.entries_eq]
    exact inv.sub.sized
  have head_loaded := load_field layout inv.sizes (o := .sqHead) rfl
  have tail_loaded := load_field layout inv.sizes (o := .sqTail) rfl
  change load32 s.mem.ring m.sqHead.toNat = some (sqRing m sqEntries s.mem).sqHead at head_loaded
  change load32 s.mem.ring m.sqTail.toNat = some (sqRing m sqEntries s.mem).sqTail at tail_loaded
  by_cases allowed : 0 < s.budget ∧
      (sqRing m sqEntries s.mem).sqHead ≠ (sqRing m sqEntries s.mem).sqTail
  · have index := consumed_index inv.sub allowed.2
    rw [inv.sub.sized.entries_eq, ← sqSized] at index
    obtain ⟨mem, ran, only⟩ := consumeEntry_eq layout sized inv.sizes rfl index
    have consumed : Submission.step (rings m sqEntries cqEntries s).1 .consume =
        some (Submission.consume (rings m sqEntries cqEntries s).1) := if_pos allowed
    rw [ringsStep, consumed]
    simp only [submission, head_loaded, tail_loaded, Option.bind_eq_bind, Option.bind_some,
      if_pos allowed, ran, Option.map_some, rings, Submission.consume, only.sq, only.cq]
  · have refused : Submission.step (rings m sqEntries cqEntries s).1 .consume = none :=
      if_neg allowed
    rw [ringsStep, refused]
    simp only [submission, head_loaded, tail_loaded, Option.bind_eq_bind, Option.bind_some,
      if_neg allowed, Option.map_none]

include cqSized in
theorem post_mirrors (cqe : Cqe) :
    (completion m s (.post cqe)).map (rings m sqEntries cqEntries) =
      ringsStep (rings m sqEntries cqEntries s) (.completion (.post cqe)) := by
  have sized : Sized cqEntries (cqRing m cqEntries s.mem).cqMask cqBits := by
    rw [cqSized, ← inv.comp.queue.sized.entries_eq]
    exact inv.comp.queue.sized
  have head_loaded := load_field layout inv.sizes (o := .cqHead) rfl
  have tail_loaded := load_field layout inv.sizes (o := .cqTail) rfl
  have entries_loaded := load_field layout inv.sizes (o := .cqEntries) rfl
  change load32 s.mem.ring m.cqHead.toNat = some (cqRing m cqEntries s.mem).cqHead at head_loaded
  change load32 s.mem.ring m.cqTail.toNat = some (cqRing m cqEntries s.mem).cqTail at tail_loaded
  change load32 s.mem.ring m.cqEntries.toNat = some (cqRing m cqEntries s.mem).cqEntries
    at entries_loaded
  obtain ⟨mem, ran, only⟩ := post_eq layout inv.sizes sized cqe
  by_cases room : (cqRing m cqEntries s.mem).cqTail - (cqRing m cqEntries s.mem).cqHead <
      (cqRing m cqEntries s.mem).cqEntries
  · have posted : Completion.step (rings m sqEntries cqEntries s).2 (.post cqe) =
        some { (rings m sqEntries cqEntries s).2 with
          queue := (rings m sqEntries cqEntries s).2.queue.post cqe } := if_pos room
    rw [ringsStep, posted]
    simp only [completion, head_loaded, tail_loaded, entries_loaded, Option.bind_eq_bind,
      Option.bind_some, if_pos room, ran, Option.map_some, rings, Completion.Queue.post, only.sq,
      only.cq]
  · have refused : Completion.step (rings m sqEntries cqEntries s).2 (.post cqe) = none :=
      if_neg room
    rw [ringsStep, refused]
    simp only [completion, head_loaded, tail_loaded, entries_loaded, Option.bind_eq_bind,
      Option.bind_some, if_neg room, Option.map_none]

include cqSized in
theorem loadTail_mirrors :
    (completion m s .loadTail).map (rings m sqEntries cqEntries) =
      ringsStep (rings m sqEntries cqEntries s) (.completion .loadTail) := by
  have sized : Sized cqEntries (cqRing m cqEntries s.mem).cqMask cqBits := by
    rw [cqSized, ← inv.comp.queue.sized.entries_eq]
    exact inv.comp.queue.sized
  have tail_loaded := load_field layout inv.sizes (o := .cqTail) rfl
  have mask_loaded := load_field layout inv.sizes (o := .cqMask) rfl
  change load32 s.mem.ring m.cqTail.toNat = some (cqRing m cqEntries s.mem).cqTail at tail_loaded
  change load32 s.mem.ring m.cqMask.toNat = some (cqRing m cqEntries s.mem).cqMask at mask_loaded
  cases pc : s.pc with
  | resultHead head =>
    have within : head &&& (cqRing m cqEntries s.mem).cqMask < cqEntries :=
      UInt32.lt_iff_toNat_lt.mpr (sized.masked_lt _)
    have entry_loaded := Memory.load_eq (cqes_inside layout inv.sizes within)
    have entry : (cqRing m cqEntries s.mem).cqes (head &&& (cqRing m cqEntries s.mem).cqMask) =
        s.mem.ring.view (m.cqeAt (head &&& (cqRing m cqEntries s.mem).cqMask)).offset 16 :=
      if_pos within
    rw [← entry] at entry_loaded
    simp only [completion, pc, tail_loaded, mask_loaded, entry_loaded, Option.bind_eq_bind,
      Option.bind_some, ringsStep, Completion.step, rings]
    split <;> rfl
  | _ => simp only [completion, pc, ringsStep, Completion.step, rings, Option.map_none]

include cqSized in
/-- What is left loads and stores the head. -/
theorem completion_mirrors (a : Completion.Action Cqe) :
    (completion m s a).map (rings m sqEntries cqEntries) =
      ringsStep (rings m sqEntries cqEntries s) (.completion a) := by
  have head_loaded := load_field layout inv.sizes (o := .cqHead) rfl
  change load32 s.mem.ring m.cqHead.toNat = some (cqRing m cqEntries s.mem).cqHead at head_loaded
  cases a with
  | post cqe => exact post_mirrors layout cqSized inv cqe
  | loadTail => exact loadTail_mirrors layout cqSized inv
  | loadHead =>
    cases pc : s.pc with
    | polling => simp only [completion, pc, head_loaded, Option.bind_eq_bind, Option.bind_some,
        ringsStep, Completion.step, rings, Option.map_some]
    | _ => simp only [completion, pc, ringsStep, Completion.step, rings, Option.map_none]
  | finishHandle =>
    cases pc : s.pc with
    | handling cqe => simp only [completion, pc, head_loaded, Option.bind_eq_bind,
        Option.bind_some, ringsStep, Completion.step, rings, Option.map_some]
    | _ => simp only [completion, pc, ringsStep, Completion.step, rings, Option.map_none]
  | storeHead =>
    cases pc : s.pc with
    | advanceHead cqe head =>
      obtain ⟨ring, stored, only⟩ := advance_eq layout inv.sizes head
      simp only [completion, pc, stored, Option.bind_eq_bind, Option.bind_some, ringsStep,
        Completion.step, rings, Option.map_some, only.sq, only.cq]
    | _ => simp only [completion, pc, ringsStep, Completion.step, rings, Option.map_none]

end Steps

section Sizes
variable {m : Mapping} {s t : State}

theorem flush_size (ran : flush m mask count mem sqTail sqListHead = some (ring, counters)) :
    ring.size = mem.size := by
  induction count generalizing mem sqTail sqListHead with
  | zero =>
    cases ran
    rfl
  | succ count ih =>
    obtain ⟨first, stored, later⟩ := Option.bind_eq_some_iff.mp ran
    exact (ih later).trans (Memory.store_size stored)

theorem uringWait_sizes (sizes : Sizes m mem)
    (ran : uringWait m uring mem count = some (enter, uring', mem')) : Sizes m mem' := by
  simp only [uringWait, Option.bind_eq_bind, Option.bind_eq_some_iff] at ran
  obtain ⟨mask, -, tail, -, waited⟩ := ran
  split at waited
  · obtain ⟨⟨ring, counters⟩, flushed, rest⟩ := Option.bind_eq_some_iff.mp waited
    obtain ⟨ring', stored, rest⟩ := Option.bind_eq_some_iff.mp rest
    obtain ⟨head, -, same⟩ := Option.bind_eq_some_iff.mp rest
    cases same
    exact ⟨((Memory.store_size stored).trans (flush_size flushed)).trans sizes.ring, sizes.sqes⟩
  · obtain ⟨head, -, same⟩ := Option.bind_eq_some_iff.mp waited
    cases same
    exact sizes

theorem submission_sizes (sizes : Sizes m s.mem) (stepped : submission m s a = some t) :
    Sizes m t.mem := by
  cases a with
  | newSubmission =>
    obtain ⟨⟨sqe, uring⟩, -, same⟩ := Option.bind_eq_some_iff.mp stepped
    cases sqe <;> cases same <;> exact sizes
  | fill i entry =>
    obtain ⟨sqe, -, rest⟩ := Option.bind_eq_some_iff.mp stepped
    obtain ⟨sqes, stored, same⟩ := Option.bind_eq_some_iff.mp rest
    cases same
    exact ⟨sizes.ring, (Memory.store_size stored).trans sizes.sqes⟩
  | wait count =>
    obtain ⟨-, rest⟩ := Option.ite_none_right_eq_some.mp stepped
    obtain ⟨⟨enter, uring, mem⟩, ran, same⟩ := Option.bind_eq_some_iff.mp rest
    cases same
    exact uringWait_sizes sizes ran
  | consume =>
    simp only [submission, Option.bind_eq_bind, Option.bind_eq_some_iff] at stepped
    obtain ⟨head, -, tail, -, rest⟩ := stepped
    obtain ⟨-, rest⟩ := Option.ite_none_right_eq_some.mp rest
    obtain ⟨⟨entry, mem⟩, ran, same⟩ := Option.bind_eq_some_iff.mp rest
    cases same
    simp only [consumeEntry, Option.bind_eq_bind, Option.bind_eq_some_iff] at ran
    obtain ⟨_, -, _, -, _, -, _, -, ring, stored, same⟩ := ran
    cases same
    exact ⟨(Memory.store_size stored).trans sizes.ring, sizes.sqes⟩

theorem completion_sizes (sizes : Sizes m s.mem) (stepped : completion m s a = some t) :
    Sizes m t.mem := by
  cases a with
  | post cqe =>
    simp only [completion, Option.bind_eq_bind, Option.bind_eq_some_iff] at stepped
    obtain ⟨_, -, _, -, _, -, rest⟩ := stepped
    obtain ⟨-, rest⟩ := Option.ite_none_right_eq_some.mp rest
    obtain ⟨mem, posted, same⟩ := Option.bind_eq_some_iff.mp rest
    cases same
    simp only [post, Option.bind_eq_bind, Option.bind_eq_some_iff] at posted
    obtain ⟨_, -, _, -, entry, stored, ring, published, same⟩ := posted
    cases same
    exact ⟨((Memory.store_size published).trans (Memory.store_size stored)).trans sizes.ring,
      sizes.sqes⟩
  | loadHead =>
    simp only [completion] at stepped
    split at stepped
    · obtain ⟨head, -, same⟩ := Option.bind_eq_some_iff.mp stepped
      cases same
      exact sizes
    · cases stepped
  | loadTail =>
    simp only [completion] at stepped
    split at stepped
    · obtain ⟨tail, -, rest⟩ := Option.bind_eq_some_iff.mp stepped
      split at rest
      · cases rest
        exact sizes
      · obtain ⟨mask, -, rest⟩ := Option.bind_eq_some_iff.mp rest
        obtain ⟨entry, -, same⟩ := Option.bind_eq_some_iff.mp rest
        cases same
        exact sizes
    · cases stepped
  | finishHandle =>
    simp only [completion] at stepped
    split at stepped
    · obtain ⟨head, -, same⟩ := Option.bind_eq_some_iff.mp stepped
      cases same
      exact sizes
    · cases stepped
  | storeHead =>
    simp only [completion] at stepped
    split at stepped
    · obtain ⟨ring, stored, same⟩ := Option.bind_eq_some_iff.mp stepped
      cases same
      exact ⟨(Memory.store_size stored).trans sizes.ring, sizes.sqes⟩
    · cases stepped

end Sizes

section Runs
variable {m : Mapping} {sqEntries cqEntries : UInt32} {sqBits cqBits : Nat} {s t : State}
  (layout : Layout m sqEntries cqEntries)
  (sqSized : sqEntries = UInt32.ofNat (2 ^ sqBits)) (cqSized : cqEntries = UInt32.ofNat (2 ^ cqBits))
include layout sqSized cqSized

/-- A step on the bytes is a step of the two machines, and is refused when theirs is:
no access leaves its mapping. -/
theorem step_mirrors (inv : Inv m sqEntries cqEntries sqBits cqBits s) (a : Action) :
    (step m s a).map (rings m sqEntries cqEntries) = ringsStep (rings m sqEntries cqEntries s) a := by
  cases a with
  | submission a =>
    cases a with
    | newSubmission => exact newSubmission_mirrors layout inv
    | fill i entry => exact fill_mirrors layout sqSized inv i entry
    | wait count => exact wait_mirrors layout sqSized inv count
    | consume => exact consume_mirrors layout sqSized inv
  | completion a => exact completion_mirrors layout cqSized inv a

theorem step_inv (inv : Inv m sqEntries cqEntries sqBits cqBits s) (stepped : step m s a = some t) :
    Inv m sqEntries cqEntries sqBits cqBits t := by
  have mirrors := step_mirrors layout sqSized cqSized inv a
  rw [stepped] at mirrors
  cases a with
  | submission a =>
    obtain ⟨sub, sub_stepped, same⟩ := Option.map_eq_some_iff.mp mirrors.symm
    have first := congrArg Prod.fst same
    have second := congrArg Prod.snd same
    dsimp only at first second
    exact ⟨submission_sizes inv.sizes stepped, first ▸ Submission.step_inv inv.sub sub_stepped,
      second ▸ inv.comp⟩
  | completion a =>
    obtain ⟨comp, comp_stepped, same⟩ := Option.map_eq_some_iff.mp mirrors.symm
    have first := congrArg Prod.fst same
    have second := congrArg Prod.snd same
    dsimp only at first second
    exact ⟨completion_sizes inv.sizes stepped, first ▸ inv.sub,
      second ▸ Completion.step_inv inv.comp comp_stepped⟩

theorem run_mirrors (inv : Inv m sqEntries cqEntries sqBits cqBits s) (acts : List Action) :
    (Transition.run (step m) s acts).map (rings m sqEntries cqEntries) =
      Transition.run ringsStep (rings m sqEntries cqEntries s) acts :=
  Transition.run_view (rings m sqEntries cqEntries)
    (fun a kept => step_mirrors layout sqSized cqSized kept a)
    (fun kept stepped => step_inv layout sqSized cqSized kept stepped) inv acts

end Runs
/-- The queue `uring_init` returns, over mappings nothing has been done to. -/
def State.start (mem : Mappings) : State where
  uring := ⟨0, 0⟩
  mem := mem
  held := []
  budget := 0
  accepted := []
  consumed := []
  posted := []
  retired := 0
  pc := .polling
  handled := []

/-- What `io_uring_setup` and the two `mmap` calls provide. -/
structure Setup (p : IoUringParams) (mem : Mappings) : Prop where
  valid : p.Valid
  apart : ∀ a b : Object, a ≠ b →
    a.start (uringInit p) + a.size p.sqEntries p.cqEntries ≤ b.start (uringInit p) ∨
      b.start (uringInit p) + b.size p.sqEntries p.cqEntries ≤ a.start (uringInit p)
  sizes : Sizes (uringInit p) mem
  sqHead : field (uringInit p) mem.ring .sqHead = 0
  sqTail : field (uringInit p) mem.ring .sqTail = 0
  sqMask : field (uringInit p) mem.ring .sqMask = p.sqEntries - 1
  sqEntries : field (uringInit p) mem.ring .sqEntries = p.sqEntries
  cqHead : field (uringInit p) mem.ring .cqHead = 0
  cqTail : field (uringInit p) mem.ring .cqTail = 0
  cqMask : field (uringInit p) mem.ring .cqMask = p.cqEntries - 1
  cqEntries : field (uringInit p) mem.ring .cqEntries = p.cqEntries

section Setup
variable {p : IoUringParams} {mem : Mappings}

theorem Setup.layout (setup : Setup p mem) : Layout (uringInit p) p.sqEntries p.cqEntries :=
  ⟨uringInit_covers setup.valid, setup.apart⟩

theorem Setup.rings_start (setup : Setup p mem) (sqSized : p.sqEntries = UInt32.ofNat (2 ^ sqBits))
    (cqSized : p.cqEntries = UInt32.ofNat (2 ^ cqBits)) :
    rings (uringInit p) p.sqEntries p.cqEntries (State.start mem) =
      (Submission.start sqBits (sqRing (uringInit p) p.sqEntries mem).sqArray
          (sqRing (uringInit p) p.sqEntries mem).sqes,
        Completion.start cqBits (cqRing (uringInit p) p.cqEntries mem).cqes) := by
  simp only [rings, State.start, Submission.start, Completion.start, Completion.Queue.start, sqRing,
    cqRing, setup.sqHead, setup.sqTail, setup.sqMask, setup.sqEntries, setup.cqHead, setup.cqTail,
    setup.cqMask, setup.cqEntries, ← sqSized, ← cqSized]

/-- Both rings on the bytes of the shared mappings. Every run of the process and the
kernel, with the accesses of the two rings in any order, is the run of the two ring
machines side by side: an operation on one ring leaves the other as it is, what is
refused is refused by them, so that no access is a fault, and both kinds of entries are
delivered byte for byte, each once and in order. -/
theorem mapped_rings_refined (setup : Setup p mem) (acts : List Action) :
    ∃ sqBits cqBits,
      p.sqEntries = UInt32.ofNat (2 ^ sqBits) ∧ p.cqEntries = UInt32.ofNat (2 ^ cqBits) ∧
      (Transition.run (step (uringInit p)) (State.start mem) acts).map
          (rings (uringInit p) p.sqEntries p.cqEntries) =
        Transition.run ringsStep
          (Submission.start sqBits (sqRing (uringInit p) p.sqEntries mem).sqArray
              (sqRing (uringInit p) p.sqEntries mem).sqes,
            Completion.start cqBits (cqRing (uringInit p) p.cqEntries mem).cqes) acts ∧
      ∀ s, Transition.run (step (uringInit p)) (State.start mem) acts = some s →
        s.consumed.map some <+: s.accepted ∧ s.handled <+: s.posted := by
  obtain ⟨sqBits, sqSmall, sqSized⟩ := setup.valid.sq_entries
  obtain ⟨cqBits, cqSmall, cqSized⟩ := setup.valid.cq_entries
  have layout := setup.layout
  have start := setup.rings_start sqSized cqSized
  have inv : Inv (uringInit p) p.sqEntries p.cqEntries sqBits cqBits (State.start mem) := by
    refine ⟨setup.sizes, ?_, ?_⟩
    · rw [start]
      exact Submission.start_inv (by omega) _ _
    · rw [start]
      exact Completion.start_inv (by omega) _
  refine ⟨sqBits, cqBits, sqSized, cqSized, ?_, ?_⟩
  · rw [← start]
    exact run_mirrors layout sqSized cqSized inv acts
  · intro s ran
    have final := Transition.run_invariant
      (fun kept stepped => step_inv layout sqSized cqSized kept stepped) inv ran
    exact ⟨final.sub.fifo.consumed_prefix, final.comp.handled_prefix⟩

/-- The layout of a kernel, of which the two masks and the two numbers of entries are
not zero. -/
def kernelParams : IoUringParams := ⟨16, 32, ⟨0, 64, 256, 264, 832⟩, ⟨128, 192, 260, 268, 320⟩⟩

def kernelMappings : Mappings where
  ring := ⟨896, fun a => if a = 256 then 15 else if a = 260 then 31 else if a = 264 then 16
    else if a = 268 then 32 else 0⟩
  sqes := ⟨1024, fun _ => 0⟩

theorem kernel_setup : Setup kernelParams kernelMappings := by
  have valid : kernelParams.Valid := by
    constructor
    · exact ⟨4, by decide, by decide⟩
    · exact ⟨5, by decide, by decide⟩
    · decide
    · decide
    · simp [kernelParams]
  constructor
  · exact valid
  · intro a b differ
    cases a <;> cases b <;> first | exact absurd rfl differ | decide
  · exact ⟨by decide, by decide⟩
  all_goals decide +kernel

/-- A submission and a completion, the second written between the two halves of the
first. -/
theorem mapped_rings_refined_pair :
    ∃ s, Transition.run (step (uringInit kernelParams)) (State.start kernelMappings)
        [.submission .newSubmission, .completion (.post fun _ => 7),
          .submission (.fill 0 fun _ => 9), .completion .loadHead, .submission (.wait 1),
          .completion .loadTail, .submission .consume] = some s ∧
      s.consumed.length = 1 ∧ s.handled.length = 1 ∧
      s.consumed.map some <+: s.accepted ∧ s.handled <+: s.posted := by
  obtain ⟨_, _, -, -, -, delivered⟩ := mapped_rings_refined kernel_setup
    [.submission .newSubmission, .completion (.post fun _ => 7),
      .submission (.fill 0 fun _ => 9), .completion .loadHead, .submission (.wait 1),
      .completion .loadTail, .submission .consume]
  have counted : (Transition.run (step (uringInit kernelParams)) (State.start kernelMappings)
      [.submission .newSubmission, .completion (.post fun _ => 7),
        .submission (.fill 0 fun _ => 9), .completion .loadHead, .submission (.wait 1),
        .completion .loadTail, .submission .consume]).map
      (fun s => (s.consumed.length, s.handled.length)) = some (1, 1) := by decide +kernel
  obtain ⟨s, ran, lengths⟩ := Option.map_eq_some_iff.mp counted
  exact ⟨s, ran, congrArg Prod.fst lengths, congrArg Prod.snd lengths, delivered s ran⟩

end Setup
end MinLinux.Uring.Mapped
