import Mathlib.Algebra.Group.Nat.Defs
import Mathlib.Data.List.Basic
import Mathlib.Logic.Function.Basic

/-! Free-running 32-bit ring counters and the cells they select. A ghost natural
number counts the steps of a counter, so wraparound is the reduction modulo 2^32
and order is the order of the ghosts. Element and cell types are arbitrary. -/
namespace MinLinux.Ring

/-- The cell a free-running counter selects after `n` steps. -/
def slot (mask : UInt32) (n : Nat) : UInt32 := UInt32.ofNat n &&& mask

/-- A power-of-two ring, with the mask its users apply to every counter. -/
structure Sized (entries mask : UInt32) (bits : Nat) : Prop where
  small : bits ≤ 31
  entries_eq : entries = UInt32.ofNat (2 ^ bits)
  mask_eq : mask = entries - 1

theorem counter_sub (ordered : a ≤ b) (near : b - a < 2 ^ 32) :
    (UInt32.ofNat b - UInt32.ofNat a).toNat = b - a := by
  rw [← UInt32.ofNat_sub ordered, UInt32.toNat_ofNat']
  exact Nat.mod_eq_of_lt near

/-- Equality of wrapped counters decides equality of the ghosts they count,
provided the ghosts stay within one turn of the counter. -/
theorem counter_eq_iff (ordered : a ≤ b) (near : b - a < 2 ^ 32) :
    UInt32.ofNat a = UInt32.ofNat b ↔ a = b := by
  constructor
  · intro same
    have gap := counter_sub ordered near
    rw [same] at gap
    simp at gap
    omega
  · exact congrArg UInt32.ofNat

namespace Sized
variable {entries mask : UInt32} {bits : Nat}

theorem pow_lt (sized : Sized entries mask bits) : 2 ^ bits < 2 ^ 32 :=
  Nat.pow_lt_pow_right (by omega) (by have := sized.small; omega)

theorem entries_toNat (sized : Sized entries mask bits) : entries.toNat = 2 ^ bits := by
  rw [sized.entries_eq, UInt32.toNat_ofNat']
  exact Nat.mod_eq_of_lt sized.pow_lt

theorem mask_toNat (sized : Sized entries mask bits) : mask.toNat = 2 ^ bits - 1 := by
  have positive : 1 ≤ 2 ^ bits := Nat.one_le_two_pow
  have wrapped : UInt32.ofNat (2 ^ bits - 1) = mask := by
    rw [sized.mask_eq, sized.entries_eq, UInt32.ofNat_sub positive]
    rfl
  have bound := sized.pow_lt
  rw [← wrapped, UInt32.toNat_ofNat', Nat.mod_eq_of_lt (by omega)]

theorem slot_toNat (sized : Sized entries mask bits) (n : Nat) :
    (slot mask n).toNat = n % 2 ^ bits := by
  have divides : 2 ^ bits ∣ 2 ^ 32 := Nat.pow_dvd_pow 2 (by have := sized.small; omega)
  rw [slot, UInt32.toNat_and, sized.mask_toNat, Nat.and_two_pow_sub_one_eq_mod,
    UInt32.toNat_ofNat', Nat.mod_mod_of_dvd _ divides]

/-- Whatever a counter holds, the cell is one of the ring. -/
theorem masked_lt (sized : Sized entries mask bits) (counter : UInt32) :
    (counter &&& mask).toNat < entries.toNat := by
  have below := Nat.and_le_right (n := counter.toNat) (m := mask.toNat)
  have positive : 0 < 2 ^ bits := Nat.two_pow_pos bits
  rw [sized.mask_toNat] at below
  rw [UInt32.toNat_and, sized.mask_toNat, sized.entries_toNat]
  omega

/-- Two counts less than one turn of the ring apart never share a cell. -/
theorem slot_ne (sized : Sized entries mask bits) (ordered : a < b) (near : b - a < 2 ^ bits) :
    slot mask a ≠ slot mask b := by
  intro same
  have residue : a % 2 ^ bits = b % 2 ^ bits := by
    rw [← sized.slot_toNat, ← sized.slot_toNat, same]
  have divides : 2 ^ bits ∣ b - a :=
    Nat.dvd_of_mod_eq_zero (Nat.sub_mod_eq_zero_of_mod_eq residue.symm)
  have := Nat.le_of_dvd (by omega) divides
  omega

end Sized

/-- The cells selected from count `first` on hold the listed contents, up to `rel`. -/
def Window (rel : α → β → Prop) (mask : UInt32) (cells : UInt32 → α) (first : Nat)
    (contents : List β) : Prop :=
  ∀ i, (h : i < contents.length) → rel (cells (slot mask (first + i))) contents[i]

namespace Window
variable {rel : α → β → Prop} {entries mask : UInt32} {cells : UInt32 → α} {contents : List β}

theorem nil : Window rel mask cells first [] := fun _ h => absurd h (Nat.not_lt_zero _)

theorem head (window : Window rel mask cells first (b :: contents)) :
    rel (cells (slot mask first)) b :=
  window 0 (Nat.succ_pos _)

theorem drop (window : Window rel mask cells first contents) (n : Nat) :
    Window rel mask cells (first + n) (contents.drop n) := by
  intro i h
  rw [List.length_drop] at h
  have shifted := window (n + i) (by omega)
  rwa [← Nat.add_assoc, ← List.getElem_drop] at shifted

/-- Lengthening a window is free when the next cell already relates. -/
theorem extend (window : Window rel mask cells first contents)
    (next : rel (cells (slot mask (first + contents.length))) b) :
    Window rel mask cells first (contents ++ [b]) := by
  intro i h
  rw [List.length_append, List.length_singleton] at h
  by_cases old : i < contents.length
  · rw [List.getElem_append_left old]
    exact window i old
  · obtain rfl : i = contents.length := by omega
    simpa using next

/-- A store to one live cell changes the window at that position only. -/
theorem write (sized : Sized entries mask bits) (window : Window rel mask cells first contents)
    (fits : contents.length ≤ 2 ^ bits) (within : i < contents.length) (value : rel v b) :
    Window rel mask (Function.update cells (slot mask (first + i)) v) first (contents.set i b) := by
  intro j h
  rw [List.length_set] at h
  by_cases same : i = j
  · subst j
    simpa using value
  · have other : slot mask (first + j) ≠ slot mask (first + i) := by
      rcases Nat.lt_or_gt_of_ne same with before | after
      · exact (sized.slot_ne (by omega) (by omega)).symm
      · exact sized.slot_ne (by omega) (by omega)
    rw [Function.update_of_ne other, List.getElem_set_ne same]
    exact window j h

/-- A store just past a window that is not full leaves the window alone. -/
theorem write_next (sized : Sized entries mask bits) (window : Window rel mask cells first contents)
    (room : contents.length < 2 ^ bits) :
    Window rel mask (Function.update cells (slot mask (first + contents.length)) v) first
      contents := by
  intro j h
  rw [Function.update_of_ne (sized.slot_ne (by omega) (by omega))]
  exact window j h

theorem push (sized : Sized entries mask bits) (window : Window rel mask cells first contents)
    (room : contents.length < 2 ^ bits) (value : rel v b) :
    Window rel mask (Function.update cells (slot mask (first + contents.length)) v) first
      (contents ++ [b]) := by
  apply (window.write_next sized room).extend
  rwa [Function.update_self]

end Window
end MinLinux.Ring
