import MinLinux.Numeral
import MinLinux.Text

/-! Printing of integers in util/util.c. Digits are stored backwards from the end of
a 21-byte buffer, and the string returned starts somewhere inside it. -/
namespace MinLinux.Util
open Numeral

/-- A position in the buffer. It is kept one above the source's `pos`, which may
come to stand just before the buffer. -/
structure Digits where
  pos : Nat
  exhausted : Bool
  buffer : List UInt8

/-- The digit loop; `exhausted` is its early return when the buffer is used up. -/
def digits : Nat → UInt64 → List UInt8 → Digits
  | 0, _, buffer => ⟨0, true, buffer⟩
  | pos + 1, n, buffer =>
      let buffer := buffer.set pos (48 + (n % 10).toUInt8)
      if pos = 0 then ⟨0, true, buffer⟩
      else if n / 10 = 0 then ⟨pos, false, buffer⟩
      else digits pos (n / 10) buffer

/-- The object a pointer points into. An automatic one is gone when its function has
returned. -/
inductive Storage where
  | static
  | automatic
deriving DecidableEq

structure Pointer where
  storage : Storage
  offset : Nat
deriving DecidableEq

/-- The string that the caller of a function finds at the pointer it was returned, when the
function has left `object` behind. -/
def Pointer.string (p : Pointer) (object : List UInt8) : Option (List UInt8) :=
  match p.storage with
  | .static => Text.cstring (object.drop p.offset)
  | .automatic => none

/-- `intstr`, as the caller receives it. -/
structure IntStr where
  str : Pointer
  val : List UInt8

/-- The number whose digits are stored. Negation wraps. -/
def magnitude (value : Int64) : UInt64 :=
  if value < 0 then (-value).toUInt64 else value.toUInt64

/-- The characters are stored to the `val` of an automatic `intstr`, and `str` points there.
Both members are returned as they are. -/
def intToStr (buffer : List UInt8) (value : Int64) : IntStr :=
  let loop := digits 20 (magnitude value) (buffer.set 20 0)
  if loop.exhausted then ⟨⟨.automatic, loop.pos⟩, loop.buffer⟩
  else if value < 0 then ⟨⟨.automatic, loop.pos - 1⟩, loop.buffer.set (loop.pos - 1) 45⟩
  else ⟨⟨.automatic, loop.pos⟩, loop.buffer⟩

/-- The buffer is static. -/
def ltoa (buffer : List UInt8) (value : Int64) : Pointer × List UInt8 :=
  let loop := digits 20 (magnitude value) (buffer.set 20 0)
  if loop.exhausted then (⟨.static, loop.pos⟩, loop.buffer)
  else if value < 0 then (⟨.static, loop.pos - 1⟩, loop.buffer.set (loop.pos - 1) 45)
  else (⟨.static, loop.pos⟩, loop.buffer)

section Digits
variable {front : List UInt8}

theorem digit_eq (n : UInt64) : (n % 10).toUInt8 = UInt8.ofNat (n.toNat % 10) := by
  apply UInt8.toNat_inj.mp
  rw [UInt64.toNat_toUInt8, UInt64.toNat_mod, UInt8.toNat_ofNat']
  rfl

theorem quotient_eq_zero (n : UInt64) : n / 10 = 0 ↔ n.toNat < 10 := by
  rw [← UInt64.toNat_inj, UInt64.toNat_div]
  change n.toNat / 10 = 0 ↔ _
  omega

/-- The store in front of the bytes already there. -/
theorem store_last (sized : front.length = pos + 1) (c : UInt8) (tail : List UInt8) :
    (front ++ tail).set pos c = front.take pos ++ c :: tail := by
  rw [List.set_append_left _ _ (by omega), List.set_eq_take_append_cons_drop, if_pos (by omega),
    List.drop_of_length_le (by omega), List.append_assoc]
  rfl

/-- The loop stores the numeral in front of the bytes already there. One byte is left
over, so it never finds the buffer used up. -/
theorem digits_spec (n : UInt64) (sized : front.length = pos) (tail : List UInt8)
    (fits : (numeral n.toNat).length < pos) :
    digits pos n (front ++ tail) =
      ⟨pos - (numeral n.toNat).length, false,
        front.take (pos - (numeral n.toNat).length) ++ numeral n.toNat ++ tail⟩ := by
  induction pos generalizing n front tail with
  | zero => exact absurd fits (Nat.not_lt_zero _)
  | succ pos ih =>
    have nonempty := List.length_pos_iff.mpr (numeral_ne_nil n.toNat)
    simp only [digits, store_last sized, digit_eq]
    rw [if_neg (by omega)]
    split
    · rename_i small
      rw [quotient_eq_zero] at small
      rw [numeral_digit small, Nat.mod_eq_of_lt small, List.append_assoc]
      rfl
    · rename_i large
      rw [quotient_eq_zero, Nat.not_lt] at large
      have quotient : (n / 10).toNat = n.toNat / 10 := UInt64.toNat_div _ _
      rw [numeral_step large, List.length_append, List.length_singleton] at fits ⊢
      rw [ih (n / 10) (by rw [List.length_take]; omega) _ (by rw [quotient]; omega), quotient,
        List.take_take, Nat.min_eq_left (Nat.sub_le _ _), Nat.add_sub_add_right, List.append_assoc,
        List.append_assoc, List.append_assoc]
      rfl

end Digits

section Decimal
variable {buffer : List UInt8}

theorem magnitude_toNat (value : Int64) : (magnitude value).toNat = value.toInt.natAbs := by
  have signed : value.toInt = value.toBitVec.toInt := rfl
  rw [BitVec.toInt_eq_toNat_cond] at signed
  have bound := value.toBitVec.isLt
  unfold magnitude
  split
  · rename_i negative
    rw [Int64.lt_iff_toInt_lt, show (0 : Int64).toInt = 0 from rfl] at negative
    have neg : (-value).toUInt64.toNat = (-value.toBitVec).toNat := rfl
    rw [neg, BitVec.toNat_neg]
    split at signed <;> omega
  · rename_i positive
    rw [Int64.lt_iff_toInt_lt, show (0 : Int64).toInt = 0 from rfl] at positive
    have same : value.toUInt64.toNat = value.toBitVec.toNat := rfl
    rw [same]
    split at signed <;> omega

theorem numeral_magnitude_length (value : Int64) :
    (numeral (magnitude value).toNat).length ≤ 19 := by
  rw [numeral_length_le _ (by decide), magnitude_toNat]
  have lower := value.le_toInt
  have upper := value.toInt_lt
  omega

/-- The string and its NUL take up the end of the buffer; what is in front of them
stays. -/
theorem ltoa_spec (value : Int64) (sized : buffer.length = 21) :
    (digits 20 (magnitude value) (buffer.set 20 0)).exhausted = false ∧
    0 < (digits 20 (magnitude value) (buffer.set 20 0)).pos ∧
    (signed value.toInt).length ≤ 20 ∧
    ltoa buffer value = (⟨.static, 20 - (signed value.toInt).length⟩,
      buffer.take (20 - (signed value.toInt).length) ++ signed value.toInt ++ [0]) := by
  have short := numeral_magnitude_length value
  have front : (buffer.take 20).length = 20 := by
    rw [List.length_take]
    omega
  have last := store_last sized 0 []
  have loop := digits_spec (magnitude value) front [0] (Nat.lt_succ_of_le short)
  rw [← last, List.append_nil, magnitude_toNat] at loop
  rw [magnitude_toNat] at short
  rw [ltoa, loop]
  refine ⟨rfl, by simp only; omega, ?_⟩
  simp only [Bool.false_eq_true, if_false]
  by_cases negative : value.toInt < 0
  · have below : value < 0 := Int64.lt_iff_toInt_lt.mpr negative
    rw [if_pos below, signed, if_pos negative, List.length_cons]
    refine ⟨by omega, ?_⟩
    rw [List.append_assoc, store_last (by rw [List.length_take, List.length_take]; omega),
      List.take_take, List.take_take, Nat.sub_sub, Nat.min_eq_left (by omega),
      Nat.min_eq_left (by omega), List.append_assoc]
    rfl
  · have above : ¬value < 0 := fun below => negative (Int64.lt_iff_toInt_lt.mp below)
    rw [if_neg above, signed, if_neg negative]
    refine ⟨by omega, ?_⟩
    rw [List.take_take, Nat.min_eq_left (Nat.sub_le _ _)]

/-- The two functions make the same bytes and differ in the object their pointers are into. -/
theorem intToStr_eq (buffer : List UInt8) (value : Int64) :
    intToStr buffer value =
      ⟨⟨.automatic, (ltoa buffer value).1.offset⟩, (ltoa buffer value).2⟩ := by
  simp only [intToStr, ltoa]
  split
  · rfl
  · split <;> rfl

/-- Nothing that `int_to_str` has stored can be read through the pointer it returns. -/
theorem intToStr_dangles (buffer object : List UInt8) (value : Int64) :
    (intToStr buffer value).str.string object = none := by
  rw [intToStr_eq]
  rfl

end Decimal

end MinLinux.Util
