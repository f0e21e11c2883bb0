import Mathlib.Algebra.Group.Nat.Defs
import Mathlib.Data.List.Basic

/-! Copying of memory in util/util.c. One loop serves both directions: its index runs
up from in front of the first byte or down from behind the last. Addresses index the
bytes of the memory, and an access outside of it is a fault, `none`. -/
namespace MinLinux.Util

def load (mem : List UInt8) (p : Int) : Option UInt8 := if p < 0 then none else mem[p.toNat]?

def store (mem : List UInt8) (p : Int) (c : UInt8) : Option (List UInt8) :=
  if 0 ≤ p ∧ p.toNat < mem.length then some (mem.set p.toNat c) else none

/-- The loop of `memmove`, with `len` iterations left. -/
def moveLoop (dst src : Nat) : Nat → Int → List UInt8 → Option (List UInt8)
  | 0, _, mem => some mem
  | len + 1, pos, mem => do
      let pos := pos + if dst ≤ src then 1 else -1
      let c ← load mem (src + pos)
      let mem ← store mem (dst + pos) c
      moveLoop dst src len pos mem

/-- The memory after the call, and the result. -/
def memmove (mem : List UInt8) (dst src : Nat) (len : UInt64) : Option (List UInt8 × Nat) := do
  let pos : Int := if dst ≤ src then -1 else len.toInt64.toInt
  let mem ← moveLoop dst src len.toNat pos mem
  pure (mem, dst)

def memcpy (mem : List UInt8) (dst src : Nat) (len : UInt64) : Option (List UInt8 × Nat) :=
  memmove mem dst src len

/-- The bytes from `lo` up to `hi` of the region at `src` have been copied to the region
at `dst`, and nothing else has changed. -/
structure Copied (mem : List UInt8) (dst src lo hi : Nat) (now : List UInt8) : Prop where
  length : now.length = mem.length
  copied : ∀ i, lo ≤ i → i < hi → now[dst + i]? = mem[src + i]?
  kept : ∀ a, a < dst + lo ∨ dst + hi ≤ a → now[a]? = mem[a]?

section Copied
variable {mem now : List UInt8} {dst src lo hi i : Nat}

theorem copied_start (mem : List UInt8) (dst src i : Nat) : Copied mem dst src i i mem :=
  ⟨rfl, fun _ _ _ => by omega, fun _ _ => rfl⟩

theorem load_eq (inside : src + i < mem.length) (same : now[src + i]? = mem[src + i]?) :
    load now ((src : Int) + (i : Int)) = some mem[src + i] := by
  rw [load, if_neg (by omega), show ((src : Int) + (i : Int)).toNat = src + i by omega, same,
    List.getElem?_eq_getElem inside]

theorem store_eq (inside : dst + i < now.length) (c : UInt8) :
    store now ((dst : Int) + (i : Int)) c = some (now.set (dst + i) c) := by
  have address : ((dst : Int) + (i : Int)).toNat = dst + i := by omega
  rw [store, if_pos ⟨by omega, by omega⟩, address]

/-- One more byte at the upper end of what has been copied. -/
theorem Copied.up (copied : Copied mem dst src lo hi now) (ordered : lo ≤ hi)
    (into : dst + hi < mem.length) (out : src + hi < mem.length) :
    Copied mem dst src lo (hi + 1) (now.set (dst + hi) mem[src + hi]) := by
  refine ⟨by rw [List.length_set, copied.length], ?_, ?_⟩
  · intro i above below
    rw [List.getElem?_set]
    split
    · have last : i = hi := by omega
      subst last
      rw [if_pos (by rw [copied.length]; omega), List.getElem?_eq_getElem out]
    · exact copied.copied i above (by omega)
  · intro a outside
    rw [List.getElem?_set_ne (by omega)]
    exact copied.kept a (by omega)

/-- One more byte at the lower end. -/
theorem Copied.down (copied : Copied mem dst src (lo + 1) hi now) (ordered : lo < hi)
    (into : dst + lo < mem.length) (out : src + lo < mem.length) :
    Copied mem dst src lo hi (now.set (dst + lo) mem[src + lo]) := by
  refine ⟨by rw [List.length_set, copied.length], ?_, ?_⟩
  · intro i above below
    rw [List.getElem?_set]
    split
    · have first : i = lo := by omega
      subst first
      rw [if_pos (by rw [copied.length]; omega), List.getElem?_eq_getElem out]
    · exact copied.copied i (by omega) below
  · intro a outside
    rw [List.getElem?_set_ne (by omega)]
    exact copied.kept a (by omega)

end Copied

section Loop
variable {mem now : List UInt8} {dst src len : Nat}

/-- Upwards the next byte to read lies at or behind the next one to write, so no write
has reached it. -/
theorem moveLoop_up (before : dst ≤ src) (copied : Copied mem dst src 0 done now)
    (into : dst + (done + len) ≤ mem.length) (out : src + (done + len) ≤ mem.length) :
    ∃ after, moveLoop dst src len ((done : Int) - 1) now = some after ∧
      Copied mem dst src 0 (done + len) after := by
  induction len generalizing done now with
  | zero => exact ⟨now, rfl, copied⟩
  | succ len ih =>
    have inside : src + done < mem.length := by omega
    have unread := copied.kept (src + done) (by omega)
    have space : dst + done < now.length := by
      rw [copied.length]
      omega
    obtain ⟨after, ran, moved⟩ := ih (copied.up (Nat.zero_le _) (by omega) inside) (by omega)
      (by omega)
    refine ⟨after, ?_, by rwa [Nat.add_right_comm, Nat.add_assoc] at moved⟩
    have position : (done : Int) - 1 + 1 = done := by omega
    have next : ((done + 1 : Nat) : Int) - 1 = done := by omega
    rw [next] at ran
    simp only [moveLoop, if_pos before, position, load_eq inside unread, store_eq space]
    exact ran

/-- Downwards the next byte to read lies in front of the next one to write. -/
theorem moveLoop_down (behind : src < dst) (copied : Copied mem dst src left len now)
    (ordered : left ≤ len) (into : dst + len ≤ mem.length) (out : src + len ≤ mem.length) :
    ∃ after, moveLoop dst src left left now = some after ∧ Copied mem dst src 0 len after := by
  induction left generalizing now with
  | zero => exact ⟨now, rfl, copied⟩
  | succ left ih =>
    have inside : src + left < mem.length := Nat.lt_of_lt_of_le (by omega) out
    have unread := copied.kept (src + left) (by omega)
    have space : dst + left < now.length := by
      rw [copied.length]
      omega
    obtain ⟨after, ran, moved⟩ := ih (copied.down (by omega) (by omega) inside) (by omega)
    refine ⟨after, ?_, moved⟩
    have position : ((left + 1 : Nat) : Int) + -1 = left := by omega
    simp only [moveLoop, if_neg (Nat.not_le.mpr behind), position, load_eq inside unread,
      store_eq space]
    exact ran

end Loop

/-- A length below 2^63 keeps its value as a `long`. -/
theorem toInt64_toInt (len : UInt64) (small : len.toNat < 2 ^ 63) :
    len.toInt64.toInt = len.toNat := by
  change len.toBitVec.toInt = len.toBitVec.toNat
  rw [BitVec.toInt_eq_toNat_cond, if_pos]
  change 2 * len.toNat < 2 ^ 64
  omega

theorem memmove_spec {mem : List UInt8} {dst src : Nat} {len : UInt64}
    (small : len.toNat < 2 ^ 63) (into : dst + len.toNat ≤ mem.length)
    (out : src + len.toNat ≤ mem.length) :
    ∃ after, memmove mem dst src len = some (after, dst) ∧
      Copied mem dst src 0 len.toNat after := by
  by_cases before : dst ≤ src
  · obtain ⟨after, ran, moved⟩ := moveLoop_up before (copied_start mem dst src 0)
      (by rwa [Nat.zero_add]) (by rwa [Nat.zero_add])
    refine ⟨after, ?_, by rwa [Nat.zero_add] at moved⟩
    have start : ((0 : Nat) : Int) - 1 = -1 := rfl
    rw [start] at ran
    simp only [memmove, if_pos before, ran]
    rfl
  · obtain ⟨after, ran, moved⟩ := moveLoop_down (Nat.not_le.mp before)
      (copied_start mem dst src len.toNat) (Nat.le_refl _) into out
    refine ⟨after, ?_, moved⟩
    simp only [memmove, if_neg before, toInt64_toInt len small, ran]
    rfl

/-- `memmove` and `memcpy` copy the region as it was before the call, however the two
regions lie to each other, and change nothing else. -/
theorem memmove_copies (mem : List UInt8) (dst src : Nat) (len : UInt64)
    (small : len.toNat < 2 ^ 63) (into : dst + len.toNat ≤ mem.length)
    (out : src + len.toNat ≤ mem.length) :
    ∃ after, memmove mem dst src len = some (after, dst) ∧
      memcpy mem dst src len = some (after, dst) ∧ after.length = mem.length ∧
      (∀ i < len.toNat, after[dst + i]? = mem[src + i]?) ∧
      ∀ a, a < dst ∨ dst + len.toNat ≤ a → after[a]? = mem[a]? := by
  obtain ⟨after, ran, moved⟩ := memmove_spec small into out
  exact ⟨after, ran, ran, moved.length, fun i => moved.copied i (Nat.zero_le i), moved.kept⟩

/-- A region moved up by one byte, and another moved down over its own start. -/
theorem memmove_copies_overlap :
    ∃ up down, memmove [1, 2, 3, 4, 5] 1 0 4 = some (up, 1) ∧ up = [1, 1, 2, 3, 4] ∧
      memcpy [1, 2, 3, 4, 5] 0 2 3 = some (down, 0) ∧ down = [3, 4, 5, 4, 5] := by
  obtain ⟨up, ran, -, -, -, -⟩ := memmove_copies [1, 2, 3, 4, 5] 1 0 4 (by decide) (by decide)
    (by decide)
  obtain ⟨down, -, ran', -, -, -⟩ := memmove_copies [1, 2, 3, 4, 5] 0 2 3 (by decide) (by decide)
    (by decide)
  have evaluated : memmove [1, 2, 3, 4, 5] 1 0 4 = some ([1, 1, 2, 3, 4], 1) := by decide
  have evaluated' : memcpy [1, 2, 3, 4, 5] 0 2 3 = some ([3, 4, 5, 4, 5], 0) := by decide
  rw [evaluated] at ran
  rw [evaluated'] at ran'
  cases ran
  cases ran'
  exact ⟨_, _, evaluated, rfl, evaluated', rfl⟩

end MinLinux.Util
