import MinLinux.Init.Requests
import MinLinux.Uring.Mapped

/-! The entries of both rings as the bytes they are. The functions of init.c store to the
fields of a submission one after the other, and a byte none of them stores to stays as
it is. -/
namespace MinLinux.Init
open Bytes Uring Uring.Mapped

/-- A store to one field of a `struct io_uring_sqe`. -/
structure Assignment where
  offset : Nat
  width : Nat
  value : Nat
  inside : offset + width ≤ 64

namespace Assignment

def opcode (v : UInt8) : Assignment := ⟨0, 1, v.toNat, by decide⟩
def flags (v : UInt8) : Assignment := ⟨1, 1, v.toNat, by decide⟩
def ioprio (v : UInt16) : Assignment := ⟨2, 2, v.toNat, by decide⟩
def fd (v : Int32) : Assignment := ⟨4, 4, v.toUInt32.toNat, by decide⟩
def addr (v : UInt64) : Assignment := ⟨16, 8, v.toNat, by decide⟩
def len (v : UInt32) : Assignment := ⟨24, 4, v.toNat, by decide⟩
def userData (v : UInt64) : Assignment := ⟨32, 8, v.toNat, by decide⟩

/-- The entry once the field has been stored to. -/
def apply (entry : Sqe) (a : Assignment) : Sqe :=
  patch entry a.offset (littleEndian a.width a.value)

def store (p : Nat) (sqes : Memory) (a : Assignment) : Option Memory :=
  sqes.store (p + a.offset) (littleEndian a.width a.value)

end Assignment

/-- The assignments of `submit_sig_listen` in their order. -/
def signalFields (g : Globals) : List Assignment :=
  [.opcode IORING_OP_READ, .fd g.sigfd, .addr g.siginfo, .len siginfoSize, .flags 0, .ioprio 0,
    .userData EVENT_SIGNAL]

/-- Those of the first and of the second half of `create_console_prompt`. -/
def promptFields (g : Globals) : List Assignment :=
  [.opcode IORING_OP_WRITE, .fd STDOUT, .addr g.prompt, .len promptLength, .flags IOSQE_IO_LINK,
    .ioprio 0, .userData EVENT_OTHER]

def consoleFields (g : Globals) : List Assignment :=
  [.opcode IORING_OP_READ, .fd STDIN, .addr g.buffer, .len bufferSize, .flags 0, .ioprio 0,
    .userData EVENT_CONSOLE_READ]

/-- The stores to the entry at `p`, in order. -/
def assign (p : Nat) (fields : List Assignment) (sqes : Memory) : Option Memory :=
  fields.foldlM (Assignment.store p) sqes

def entryAt (sqes : Memory) (i : UInt32) : Sqe := sqes.view (Mapping.sqeAt i).offset 64

/-- `struct io_uring_sqe` read out of its 64 bytes. -/
def IoUringSqe.decode (entry : Sqe) : IoUringSqe where
  opcode := UInt8.ofNat (number entry 0 1 (by decide))
  flags := UInt8.ofNat (number entry 1 1 (by decide))
  ioprio := UInt16.ofNat (number entry 2 2 (by decide))
  fd := (UInt32.ofNat (number entry 4 4 (by decide))).toInt32
  off := UInt64.ofNat (number entry 8 8 (by decide))
  addr := UInt64.ofNat (number entry 16 8 (by decide))
  len := UInt32.ofNat (number entry 24 4 (by decide))
  rwFlags := UInt32.ofNat (number entry 28 4 (by decide))
  userData := UInt64.ofNat (number entry 32 8 (by decide))
  bufIndex := UInt16.ofNat (number entry 40 2 (by decide))
  personality := UInt16.ofNat (number entry 42 2 (by decide))
  spliceFdIn := (UInt32.ofNat (number entry 44 4 (by decide))).toInt32
  pad2 := (UInt64.ofNat (number entry 48 8 (by decide)),
    UInt64.ofNat (number entry 56 8 (by decide)))

/-- `struct io_uring_cqe` read out of its 16 bytes, and written to them. -/
def IoUringCqe.decode (entry : Cqe) : IoUringCqe where
  userData := UInt64.ofNat (number entry 0 8 (by decide))
  res := (UInt32.ofNat (number entry 8 4 (by decide))).toInt32
  flags := UInt32.ofNat (number entry 12 4 (by decide))

def IoUringCqe.encode (cqe : IoUringCqe) : Cqe :=
  patch (patch (patch (fun _ => 0) 0 (littleEndian 8 cqe.userData.toNat))
    8 (littleEndian 4 cqe.res.toUInt32.toNat)) 12 (littleEndian 4 cqe.flags.toNat)

section Words

theorem uint8_word (v : UInt8) : UInt8.ofNat (v.toNat % 256 ^ 1) = v :=
  (congrArg UInt8.ofNat (Nat.mod_eq_of_lt v.toNat_lt)).trans UInt8.ofNat_toNat

theorem uint16_word (v : UInt16) : UInt16.ofNat (v.toNat % 256 ^ 2) = v :=
  (congrArg UInt16.ofNat (Nat.mod_eq_of_lt v.toNat_lt)).trans UInt16.ofNat_toNat

theorem uint32_word (v : UInt32) : UInt32.ofNat (v.toNat % 256 ^ 4) = v :=
  (congrArg UInt32.ofNat (Nat.mod_eq_of_lt v.toNat_lt)).trans UInt32.ofNat_toNat

theorem uint64_word (v : UInt64) : UInt64.ofNat (v.toNat % 256 ^ 8) = v :=
  (congrArg UInt64.ofNat (Nat.mod_eq_of_lt v.toNat_lt)).trans UInt64.ofNat_toNat

theorem int32_word (v : Int32) : (UInt32.ofNat (v.toUInt32.toNat % 256 ^ 4)).toInt32 = v := by
  rw [uint32_word, Int32.toInt32_toUInt32]

end Words

section Fields
variable (entry : Sqe)

theorem decode_opcode (v : UInt8) : IoUringSqe.decode (Assignment.apply entry (.opcode v)) =
    { IoUringSqe.decode entry with opcode := v } := by
  simp (disch := decide) only [IoUringSqe.decode, Assignment.apply, Assignment.opcode,
    number_patch, number_patch_apart, uint8_word]

theorem decode_flags (v : UInt8) : IoUringSqe.decode (Assignment.apply entry (.flags v)) =
    { IoUringSqe.decode entry with flags := v } := by
  simp (disch := decide) only [IoUringSqe.decode, Assignment.apply, Assignment.flags,
    number_patch, number_patch_apart, uint8_word]

theorem decode_ioprio (v : UInt16) : IoUringSqe.decode (Assignment.apply entry (.ioprio v)) =
    { IoUringSqe.decode entry with ioprio := v } := by
  simp (disch := decide) only [IoUringSqe.decode, Assignment.apply, Assignment.ioprio,
    number_patch, number_patch_apart, uint16_word]

theorem decode_fd (v : Int32) : IoUringSqe.decode (Assignment.apply entry (.fd v)) =
    { IoUringSqe.decode entry with fd := v } := by
  simp (disch := decide) only [IoUringSqe.decode, Assignment.apply, Assignment.fd,
    number_patch, number_patch_apart, int32_word]

theorem decode_addr (v : UInt64) : IoUringSqe.decode (Assignment.apply entry (.addr v)) =
    { IoUringSqe.decode entry with addr := v } := by
  simp (disch := decide) only [IoUringSqe.decode, Assignment.apply, Assignment.addr,
    number_patch, number_patch_apart, uint64_word]

theorem decode_len (v : UInt32) : IoUringSqe.decode (Assignment.apply entry (.len v)) =
    { IoUringSqe.decode entry with len := v } := by
  simp (disch := decide) only [IoUringSqe.decode, Assignment.apply, Assignment.len,
    number_patch, number_patch_apart, uint32_word]

theorem decode_userData (v : UInt64) : IoUringSqe.decode (Assignment.apply entry (.userData v)) =
    { IoUringSqe.decode entry with userData := v } := by
  simp (disch := decide) only [IoUringSqe.decode, Assignment.apply, Assignment.userData,
    number_patch, number_patch_apart, uint64_word]

/-- Field by field, the functions write the requests of the ring model. -/
theorem decode_signalFields (g : Globals) :
    IoUringSqe.decode ((signalFields g).foldl Assignment.apply entry) =
      writeSignal g (IoUringSqe.decode entry) := by
  simp only [signalFields, List.foldl, decode_opcode, decode_fd, decode_addr, decode_len,
    decode_flags, decode_ioprio, decode_userData, writeSignal]

theorem decode_promptFields (g : Globals) :
    IoUringSqe.decode ((promptFields g).foldl Assignment.apply entry) =
      writePrompt g (IoUringSqe.decode entry) := by
  simp only [promptFields, List.foldl, decode_opcode, decode_fd, decode_addr, decode_len,
    decode_flags, decode_ioprio, decode_userData, writePrompt]

theorem decode_consoleFields (g : Globals) :
    IoUringSqe.decode ((consoleFields g).foldl Assignment.apply entry) =
      writeConsole g (IoUringSqe.decode entry) := by
  simp only [consoleFields, List.foldl, decode_opcode, decode_fd, decode_addr, decode_len,
    decode_flags, decode_ioprio, decode_userData, writeConsole]

theorem decode_fresh : IoUringSqe.decode (fun _ => 0) = IoUringSqe.zero := by
  decide

theorem decode_encode (cqe : IoUringCqe) : IoUringCqe.decode cqe.encode = cqe := by
  simp (disch := decide) only [IoUringCqe.decode, IoUringCqe.encode, number_patch,
    number_patch_apart, uint32_word, uint64_word, Int32.toInt32_toUInt32]

end Fields

section Stores
variable {sqes : Memory}

theorem entryAt_store (sqes : Memory) (i : UInt32) (a : Assignment) :
    entryAt (sqes.write ((Mapping.sqeAt i).offset + a.offset) (littleEndian a.width a.value)) =
      Function.update (entryAt sqes) i (Assignment.apply (entryAt sqes i) a) := by
  funext j
  by_cases same : j = i
  · rw [same, Function.update_self]
    exact Memory.view_write_within _ _ _ _
  · rw [Function.update_of_ne same]
    have apart := elements_apart same 0 64
    simp only [Nat.zero_add] at apart
    have inside := a.inside
    apply Memory.view_write_apart
    change j.toNat * 64 + 64 ≤ i.toNat * 64 + a.offset ∨
      i.toNat * 64 + a.offset + a.width ≤ j.toNat * 64
    omega

/-- The stores stay inside the entry, and the others keep their bytes. -/
theorem assign_eq (fields : List Assignment) (inside : (Mapping.sqeAt i).offset + 64 ≤ sqes.size) :
    ∃ sqes', assign (Mapping.sqeAt i).offset fields sqes = some sqes' ∧
      sqes'.size = sqes.size ∧
      entryAt sqes' =
        Function.update (entryAt sqes) i (fields.foldl Assignment.apply (entryAt sqes i)) := by
  induction fields generalizing sqes with
  | nil => exact ⟨sqes, rfl, rfl, (Function.update_eq_self i (entryAt sqes)).symm⟩
  | cons a fields ih =>
    have within := a.inside
    have stored : a.store (Mapping.sqeAt i).offset sqes = some _ := Memory.store_eq (by omega)
    have still : (Mapping.sqeAt i).offset + 64 ≤ (sqes.write ((Mapping.sqeAt i).offset + a.offset)
        (littleEndian a.width a.value)).size := inside
    obtain ⟨sqes', ran, size, entries⟩ := ih still
    refine ⟨sqes', ?_, size, ?_⟩
    · rw [assign, List.foldlM_cons, stored]
      exact ran
    · rw [entries, entryAt_store, Function.update_self, Function.update_idem]
      rfl

end Stores
end MinLinux.Init
