import MinLinux.Command.Confinement
import MinLinux.Command.Output

/-! `dirlist` decodes what `getdents64` returns: the records of each batch, one after
the other, and the batches until the kernel reports the end or an error. -/
namespace MinLinux.Command
open Dialog Text

/-- A `linux_dirent64`: the inode number and the offset, which nothing looks at, the type,
the name, and what is left behind its NUL up to the length of the record. -/
structure Dirent where
  header : List UInt8
  dType : UInt8
  name : List UInt8
  padding : List UInt8
  sized : header.length = 16
  clean : 0 ∉ name
  short : 19 + name.length + 1 + padding.length < 2 ^ 16

namespace Dirent

def reclen (d : Dirent) : Nat := 19 + d.name.length + 1 + d.padding.length

def bytes (d : Dirent) : List UInt8 :=
  d.header ++ UInt8.ofNat d.reclen :: UInt8.ofNat (d.reclen / 256) :: d.dType ::
    (d.name ++ 0 :: d.padding)

theorem bytes_length (d : Dirent) : d.bytes.length = d.reclen := by
  simp only [bytes, reclen, List.length_append, List.length_cons, d.sized]
  omega

/-- The two bytes of `d_reclen`, as the loop adds them up. -/
theorem reclen_bytes (d : Dirent) :
    (UInt8.ofNat d.reclen).toNat + 256 * (UInt8.ofNat (d.reclen / 256)).toNat = d.reclen := by
  have short : d.reclen < 2 ^ 16 := d.short
  simp only [UInt8.toNat_ofNat']
  omega

/-- What the user sees of an entry. -/
def shown (d : Dirent) : List UInt8 := d.name ++ direntSuffix d.dType

end Dirent

/-- The records fill the batch, of which there is at least one byte and at most a buffer. -/
structure Batch where
  entries : List Dirent
  nonempty : entries ≠ []
  fits : (entries.flatMap Dirent.bytes).length ≤ 1024

def Batch.bytes (b : Batch) : List UInt8 := b.entries.flatMap Dirent.bytes

/-- The loop over a batch as it should be, by entries instead of by offsets. -/
def listing : List Dirent → Nat → Proc Unit
  | _, 0 => stop .starved
  | [], _ + 1 => pure ()
  | d :: others, fuel + 1 => do
      let _ ← syscall (.write STDOUT d.name)
      writeStr (direntSuffix d.dType)
      listing others fuel

section Loop
variable {front rest : List UInt8}

theorem loadByte_behind (at_end : front.length = i) (c : UInt8) (rest : List UInt8) :
    loadByte outside (front ++ c :: rest) i = pure c := by
  rw [loadByte, List.getElem?_append_right (Nat.le_of_eq at_end), at_end, Nat.sub_self]
  rfl

theorem stringOf_behind (at_start : front.length = i) (clean : 0 ∉ s) (rest : List UInt8) :
    stringOf outside (front ++ (s ++ 0 :: rest)) i = pure s := by
  simp only [stringOf, List.drop_left' at_start, cstring_append clean]

/-- One record: both writes, and on by its length. -/
theorem direntLoop_record (d : Dirent) (front rest : List UInt8) (fuel : Nat)
    (inside : (front.length : Int) < count) :
    direntLoop (front ++ (d.bytes ++ rest)) count (fuel + 1) front.length = (do
      let _ ← syscall (.write STDOUT d.name)
      writeStr (direntSuffix d.dType)
      direntLoop (front ++ (d.bytes ++ rest)) count fuel (front.length + d.bytes.length)) := by
  have name : stringOf .malformed (front ++ (d.bytes ++ rest)) (front.length + 19) = pure d.name := by
    have split : front ++ (d.bytes ++ rest) = (front ++ (d.header ++
        [UInt8.ofNat d.reclen, UInt8.ofNat (d.reclen / 256), d.dType])) ++
        (d.name ++ 0 :: (d.padding ++ rest)) := by
      simp [Dirent.bytes]
    rw [split]
    exact stringOf_behind (by simp [d.sized]) d.clean _
  have type : loadByte .malformed (front ++ (d.bytes ++ rest)) (front.length + 18) = pure d.dType := by
    have split : front ++ (d.bytes ++ rest) = (front ++ (d.header ++
        [UInt8.ofNat d.reclen, UInt8.ofNat (d.reclen / 256)])) ++
        d.dType :: (d.name ++ 0 :: d.padding ++ rest) := by
      simp [Dirent.bytes]
    rw [split]
    exact loadByte_behind (by simp [d.sized]) _ _
  have low : loadByte .malformed (front ++ (d.bytes ++ rest)) (front.length + 16) =
      pure (UInt8.ofNat d.reclen) := by
    have split : front ++ (d.bytes ++ rest) = (front ++ d.header) ++ UInt8.ofNat d.reclen ::
        (UInt8.ofNat (d.reclen / 256) :: d.dType :: (d.name ++ 0 :: d.padding ++ rest)) := by
      simp [Dirent.bytes]
    rw [split]
    exact loadByte_behind (by simp [d.sized]) _ _
  have high : loadByte .malformed (front ++ (d.bytes ++ rest)) (front.length + 17) =
      pure (UInt8.ofNat (d.reclen / 256)) := by
    have split : front ++ (d.bytes ++ rest) = (front ++ (d.header ++ [UInt8.ofNat d.reclen])) ++
        UInt8.ofNat (d.reclen / 256) :: (d.dType :: (d.name ++ 0 :: d.padding ++ rest)) := by
      simp [Dirent.bytes]
    rw [split]
    exact loadByte_behind (by simp [d.sized]) _ _
  have stride : front.length + (UInt8.ofNat d.reclen).toNat +
      256 * (UInt8.ofNat (d.reclen / 256)).toNat = front.length + d.bytes.length := by
    rw [Nat.add_assoc, d.reclen_bytes, d.bytes_length]
  rw [direntLoop, if_pos inside, name, type, low, high, ← stride]
  rfl

/-- Whatever stands behind the records of a batch, the loop lists them. -/
theorem direntLoop_listing (entries : List Dirent) (front rest : List UInt8) (fuel : Nat)
    (filled : (front ++ entries.flatMap Dirent.bytes).length = count) :
    direntLoop (front ++ (entries.flatMap Dirent.bytes ++ rest)) count fuel front.length =
      listing entries fuel := by
  induction entries generalizing front fuel with
  | nil =>
    cases fuel with
    | zero => rfl
    | succ fuel =>
      rw [List.flatMap_nil, List.append_nil] at filled
      rw [direntLoop, filled, if_neg (Int.lt_irrefl _)]
      rfl
  | cons d others ih =>
    cases fuel with
    | zero => rfl
    | succ fuel =>
      rw [List.flatMap_cons, ← List.append_assoc] at filled
      have inside : (front.length : Int) < count := by
        have length := d.bytes_length
        rw [Dirent.reclen] at length
        rw [← filled, List.length_append, List.length_append]
        omega
      have later := ih (front ++ d.bytes) fuel filled
      rw [List.length_append, List.append_assoc] at later
      rw [List.flatMap_cons, List.append_assoc, direntLoop_record d front _ fuel inside, later]
      rfl

end Loop

/-- The answer to a complete write. -/
def written (bytes : List UInt8) : Reply := ⟨bytes.length, [], []⟩

def wrote (bytes : List UInt8) : Event := (.write STDOUT bytes, written bytes)

theorem consoleOutput_wrote (strings : List (List UInt8)) :
    consoleOutput (strings.map wrote) = strings.flatten := by
  induction strings with
  | nil => rfl
  | cons s others ih =>
    rw [List.map_cons, List.flatten_cons, ← ih]
    simp [consoleOutput, wrote, written]

def Dirent.strings (d : Dirent) : List (List UInt8) := [d.name, direntSuffix d.dType]

namespace Batch

def strings (b : Batch) : List (List UInt8) := b.entries.flatMap Dirent.strings

def reply (b : Batch) : Reply := ⟨b.bytes.length, b.bytes, []⟩

/-- The answers while a batch is listed, and the conversation they lead to. -/
def replies (b : Batch) : List Reply := b.reply :: b.strings.map written

def events (rootdir : Int) (b : Batch) : List Event :=
  (.getdents64 rootdir 1024, b.reply) :: b.strings.map wrote

theorem strings_flatten (b : Batch) : b.strings.flatten = b.entries.flatMap Dirent.shown := by
  rw [strings, List.flatMap_def, List.flatten_flatten, List.map_map, List.flatMap_def]
  apply congrArg
  apply List.map_congr_left
  intro d _
  simp [Dirent.strings, Dirent.shown]

theorem output_events (rootdir : Int) (batches : List Batch) :
    consoleOutput (batches.flatMap (events rootdir)) =
      batches.flatMap fun b => b.entries.flatMap Dirent.shown := by
  induction batches with
  | nil => rfl
  | cons b others ih =>
    rw [List.flatMap_cons, List.flatMap_cons, consoleOutput_append, ih, ← strings_flatten, ← consoleOutput_wrote]
    rfl

/-- Two writes for each entry leave the loop iterations enough. -/
theorem entries_lt (b : Batch) (later : List Reply) :
    b.entries.length < (b.strings.map written ++ later).length + 1 := by
  have twice : b.strings.length = b.entries.length * 2 := by
    simp [strings, Dirent.strings, List.length_flatMap]
  rw [List.length_append, List.length_map]
  omega

theorem bytes_pos (b : Batch) : 0 < b.bytes.length := by
  obtain ⟨d, others, same⟩ := List.exists_cons_of_ne_nil b.nonempty
  rw [bytes, same, List.flatMap_cons, List.length_append, d.bytes_length, Dirent.reclen]
  omega

end Batch

section Runs
variable {w : World}

theorem writeStr_ok (answers : w.answers = reply :: later) (bytes : List UInt8) :
    writeStr bytes w =
      (.ok (), { w with answers := later, asked := w.asked ++ [(.write STDOUT bytes, reply)] }) := by
  have asked : Dialog.ask Stop.starved (Call.write STDOUT bytes) w = _ := syscall_ok answers _
  rw [writeStr, Macro.writeStr, bind_ok _ asked]
  rfl

theorem listing_ok (enough : entries.length < fuel)
    (answers : w.answers = (entries.flatMap Dirent.strings).map written ++ later) :
    listing entries fuel w =
      (.ok (), { w with
        answers := later
        asked := w.asked ++ (entries.flatMap Dirent.strings).map wrote }) := by
  induction entries generalizing fuel w with
  | nil =>
    obtain ⟨fuel, rfl⟩ := Nat.exists_eq_add_one_of_ne_zero (Nat.ne_of_gt enough)
    obtain ⟨state, _, asked⟩ := w
    cases answers
    simp [listing]
  | cons d others ih =>
    obtain ⟨fuel, rfl⟩ := Nat.exists_eq_add_one_of_ne_zero (Nat.ne_zero_of_lt enough)
    rw [listing, bind_ok _ (syscall_ok answers _), bind_ok _ (writeStr_ok rfl _),
      ih (Nat.lt_of_succ_lt_succ enough) rfl]
    simp [Dirent.strings, wrote]

theorem listing_blind (entries : List Dirent) (fuel : Nat) :
    Blind (fun e => e.regular = true) (listing entries fuel) := by
  induction entries generalizing fuel with
  | nil =>
    cases fuel with
    | zero => exact .stop rfl
    | succ fuel => exact .pure _
  | cons d others ih =>
    cases fuel with
    | zero => exact .stop rfl
    | succ fuel =>
      apply Blind.bind (syscall_blind (fun _ => id) _)
      intro _
      apply Blind.bind (writeStr_blind (fun _ => id) _)
      intro _
      exact ih fuel

/-- A batch in the buffer of `dirlist`. -/
theorem direntLoop_ok (b : Batch) (enough : b.entries.length < fuel)
    (answers : w.answers = b.strings.map written ++ later) :
    direntLoop (received 1024 (List.replicate 1024 0) b.bytes) b.bytes.length fuel 0 w =
      (.ok (), { w with answers := later, asked := w.asked ++ b.strings.map wrote }) := by
  have listed := direntLoop_listing b.entries [] ((List.replicate 1024 0).drop b.bytes.length) fuel
    rfl
  rw [received, List.take_of_length_le (show b.bytes.length ≤ 1024 from b.fits)]
  exact (congrFun listed w).trans (listing_ok enough answers)

/-- The program has an answer left for each thing it does, so its loops have iterations
left. -/
theorem dirlistLoop_ok {batches : List Batch} (ends : ending.res ≤ 0) (enough : batches.length < fuel)
    (answers : w.answers = batches.flatMap Batch.replies ++ ending :: later) :
    dirlistLoop rootdir fuel w =
      (.ok (), { w with
        answers := later
        asked := w.asked ++ batches.flatMap (Batch.events rootdir) ++
          [(.getdents64 rootdir 1024, ending)] }) := by
  induction batches generalizing fuel w with
  | nil =>
    obtain ⟨fuel, rfl⟩ := Nat.exists_eq_add_one_of_ne_zero (Nat.ne_of_gt enough)
    rw [dirlistLoop, bind_ok _ (syscall_ok answers _), bind_ok _ (budget_apply _), direntLoop,
      if_neg (by omega), bind_ok _ (pure_apply _ _), if_neg (by omega)]
    simp
  | cons b others ih =>
    obtain ⟨fuel, rfl⟩ := Nat.exists_eq_add_one_of_ne_zero (Nat.ne_zero_of_lt enough)
    have more : 0 < b.reply.res := Int.natCast_pos.mpr b.bytes_pos
    rw [List.flatMap_cons, List.append_assoc] at answers
    let left := others.flatMap Batch.replies ++ ending :: later
    have listed := direntLoop_ok
      (w := ⟨w.state, b.strings.map written ++ left,
        w.asked ++ [(.getdents64 rootdir 1024, b.reply)]⟩) b (b.entries_lt left) rfl
    rw [dirlistLoop, bind_ok _ (syscall_ok answers _), bind_ok _ (budget_apply _)]
    apply (bind_ok _ listed).trans
    rw [if_pos more, ih (Nat.lt_of_succ_lt_succ enough) rfl]
    simp [Batch.events]

theorem batches_length (batches : List Batch) :
    batches.length ≤ (batches.flatMap Batch.replies).length := by
  induction batches with
  | nil => exact Nat.le_refl 0
  | cons b others ih =>
    rw [List.flatMap_cons, List.length_append, Batch.replies, List.length_cons, List.length_cons]
    omega

end Runs

/-- Directory listing. Whatever the batches are, `dirlist` asks for them until the end,
shows each entry once and in order, and then makes no further call. Nothing behind the
records of a batch is read: the loop does the same whatever is there, and stays inside
the batch when that is all there is. -/
theorem dirlist_lists (w : World) (path : CharPtr) (name : List UInt8)
    (points : Points w.state path name) (rootdir : Reply) (opened : 0 ≤ rootdir.res)
    (batches : List Batch) (ending : Reply) (ends : ending.res ≤ 0) (later : List Reply)
    (answers : w.answers = rootdir :: (batches.flatMap Batch.replies ++ ending :: later)) :
    (∃ new, dirlist path w = (.ok (), ⟨w.state, later, w.asked ++ new⟩) ∧
      new = (.openat name (O_RDONLY ||| O_NOATIME ||| O_DIRECTORY), rootdir) ::
        batches.flatMap (Batch.events rootdir.res) ++ [(.getdents64 rootdir.res 1024, ending)] ∧
      consoleOutput new = batches.flatMap fun b => b.entries.flatMap Dirent.shown) ∧
    (∀ b ∈ batches, ∀ behind fuel,
      direntLoop (b.bytes ++ behind) b.bytes.length fuel 0 =
        direntLoop b.bytes b.bytes.length fuel 0 ∧
      ∀ v stop, (direntLoop b.bytes b.bytes.length fuel 0 v).1 = .error stop →
        stop.regular = true) ∧
    ∀ dType, dType ∉ [4, 8, 1, 2, 6, 10, 12] → direntSuffix dType = ascii "?\n" := by
  refine ⟨⟨_, ?_, rfl, ?_⟩, ?_, ?_⟩
  · have enough : batches.length < (batches.flatMap Batch.replies ++ ending :: later).length + 1 := by
      have most := batches_length batches
      rw [List.length_append]
      omega
    rw [dirlist, bind_ok _ (loadString_spec points), bind_ok _ (syscall_ok answers _),
      if_neg (by omega), bind_ok _ (budget_apply _), dirlistLoop_ok ends enough rfl]
    simp
  · rw [consoleOutput_append]
    exact (List.append_nil _).trans (Batch.output_events _ _)
  · intro b _ behind fuel
    have listed := direntLoop_listing b.entries [] behind fuel rfl
    have alone := direntLoop_listing b.entries [] [] fuel rfl
    rw [List.append_nil] at alone
    refine ⟨listed.trans alone.symm, ?_⟩
    intro v stop stopped
    exact (listing_blind b.entries fuel v).2 stop ((congrFun alone v) ▸ stopped)
  · intro dType unknown
    simp only [List.mem_cons, List.not_mem_nil, or_false, not_or] at unknown
    simp only [direntSuffix, unknown, if_false]

/-- A directory and an entry of no known type, in two batches, up to an error. -/
theorem dirlist_lists_two : ∃ first second : Batch,
    first.entries.map (fun d => (d.dType, d.name, d.padding)) = [(4, ascii "..", [1, 2])] ∧
    second.entries.map (fun d => (d.dType, d.name, d.padding)) = [(99, ascii "x", [])] ∧
    ∃ new, dirlist (.literal (ascii "/")) ⟨[], ⟨3, [], []⟩ ::
        ([first, second].flatMap Batch.replies ++ [⟨-5, [], []⟩]), []⟩ =
        (.ok (), ⟨[], [], new⟩) ∧
      consoleOutput new = ascii "../\nx?\n" := by
  refine ⟨⟨[⟨List.replicate 16 7, 4, ascii "..", [1, 2], rfl, by decide, by decide⟩], nofun,
      by decide⟩,
    ⟨[⟨List.replicate 16 0, 99, ascii "x", [], rfl, by decide, by decide⟩], nofun, by decide⟩,
    rfl, rfl, ?_⟩
  obtain ⟨⟨new, returned, -, shown⟩, -, -⟩ := dirlist_lists ⟨[], _, []⟩ (.literal (ascii "/"))
    (ascii "/") rfl ⟨3, [], []⟩ (by decide) _ ⟨-5, [], []⟩ (by decide) [] rfl
  exact ⟨new, returned, shown⟩

end MinLinux.Command
