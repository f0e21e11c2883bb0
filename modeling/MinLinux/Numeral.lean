import Mathlib.Algebra.Group.Nat.Defs
import Mathlib.Data.Nat.Digits.Defs

/-! Decimal numerals in ASCII: the digits of a number, and the forms that denote an
integer canonically. -/
namespace MinLinux.Numeral

/-- The digits of a number, most significant first. -/
def numeral (n : Nat) : List UInt8 := (Nat.toDigits 10 n).map fun c => UInt8.ofNat c.toNat

/-- A minus sign stands in front of the negative integers. -/
def signed (v : Int) : List UInt8 := if v < 0 then 45 :: numeral v.natAbs else numeral v.natAbs

/-- What a row of digits reads as. -/
def valueOf (digits : List UInt8) : Nat := digits.foldl (fun n d => 10 * n + (d.toNat - 48)) 0

/-- An optional sign and at least one digit, without leading zeros, that read back as
the integer. -/
def IsDecimal (s : List UInt8) (v : Int) : Prop :=
  ∃ digits, s = (if v < 0 then 45 :: digits else digits) ∧ digits ≠ [] ∧
    (∀ d ∈ digits, 48 ≤ d ∧ d ≤ 57) ∧ (digits.head? = some 48 → digits = [48]) ∧
    valueOf digits = v.natAbs

section Digits
variable {n : Nat}

theorem digitChar_byte (small : n < 10) :
    UInt8.ofNat n.digitChar.toNat = 48 + UInt8.ofNat n := by
  rw [Nat.toNat_digitChar_of_lt_ten small, UInt8.ofNat_add]
  rfl

theorem digit_toNat : ∀ n < 10, (48 + UInt8.ofNat n).toNat = 48 + n := by decide

theorem numeral_digit (small : n < 10) : numeral n = [48 + UInt8.ofNat n] := by
  rw [numeral, Nat.toDigits_of_lt_base small, List.map_singleton, digitChar_byte small]

theorem numeral_step (large : 10 ≤ n) :
    numeral n = numeral (n / 10) ++ [48 + UInt8.ofNat (n % 10)] := by
  rw [numeral, Nat.toDigits_of_base_le (by decide) large, List.map_append, List.map_singleton,
    digitChar_byte (Nat.mod_lt n (by decide))]
  rfl

theorem numeral_ne_nil (n : Nat) : numeral n ≠ [] := by
  simp [numeral]

theorem numeral_length_le (n : Nat) (positive : 0 < k) :
    (numeral n).length ≤ k ↔ n < 10 ^ k := by
  rw [numeral, List.length_map]
  exact Nat.length_toDigits_le_iff (by decide) positive

theorem valueOf_append (digits : List UInt8) (d : UInt8) :
    valueOf (digits ++ [d]) = 10 * valueOf digits + (d.toNat - 48) := by
  rw [valueOf, List.foldl_append]
  rfl

/-- Induction along the digits of a number. -/
theorem numeral_induction {P : Nat → Prop} (digit : ∀ n < 10, P n)
    (step : ∀ n, 10 ≤ n → P (n / 10) → P n) (n : Nat) : P n := by
  induction n using Nat.strong_induction_on with
  | h n ih =>
    by_cases small : n < 10
    · exact digit n small
    · exact step n (by omega) (ih (n / 10) (by omega))

theorem valueOf_numeral (n : Nat) : valueOf (numeral n) = n := by
  induction n using numeral_induction with
  | digit n small =>
    rw [numeral_digit small]
    simp [valueOf, digit_toNat n small]
  | step n large ih =>
    rw [numeral_step large, valueOf_append, ih, digit_toNat _ (Nat.mod_lt n (by decide))]
    omega

theorem numeral_digits (n : Nat) : ∀ d ∈ numeral n, 48 ≤ d ∧ d ≤ 57 := by
  have digit : ∀ n < 10, 48 ≤ 48 + UInt8.ofNat n ∧ 48 + UInt8.ofNat n ≤ 57 := by decide
  induction n using numeral_induction with
  | digit n small =>
    rw [numeral_digit small]
    simpa using digit n small
  | step n large ih =>
    rw [numeral_step large]
    intro d member
    rcases List.mem_append.mp member with earlier | last
    · exact ih d earlier
    · rw [List.mem_singleton.mp last]
      exact digit _ (Nat.mod_lt n (by decide))

/-- Only the numeral of zero starts with the digit zero. -/
theorem numeral_head (n : Nat) (zero : (numeral n).head? = some 48) : n = 0 := by
  have digit : ∀ n < 10, 48 + UInt8.ofNat n = 48 → n = 0 := by decide
  induction n using numeral_induction with
  | digit n small =>
    rw [numeral_digit small] at zero
    exact digit n small (Option.some.inj zero)
  | step n large ih =>
    rw [numeral_step large, List.head?_append, List.head?_eq_some_head (numeral_ne_nil _),
      Option.some_or, ← List.head?_eq_some_head (numeral_ne_nil _)] at zero
    have quotient := ih zero
    omega

end Digits

theorem signed_isDecimal (v : Int) : IsDecimal (signed v) v := by
  refine ⟨numeral v.natAbs, rfl, numeral_ne_nil _, numeral_digits _, ?_, valueOf_numeral _⟩
  intro zero
  rw [numeral_head _ zero]
  decide

/-- No byte of a numeral ends a string. -/
theorem signed_clean (v : Int) : 0 ∉ signed v := by
  have digits : 0 ∉ numeral v.natAbs := fun zero =>
    absurd (numeral_digits _ 0 zero).1 (by decide)
  unfold signed
  split
  · simp [digits]
  · exact digits

end MinLinux.Numeral
