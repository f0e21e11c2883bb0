import Mathlib.Data.List.Lex
import Mathlib.Order.Basic

/-! Comparison of memory in util/util.c. The difference of two bytes is computed in a
signed `char`, which holds it only as long as the bytes are not too far apart. -/
namespace MinLinux.Util

/-- The difference as the `char` that is tested and returned. -/
def charDiff (x y : UInt8) : Int8 := Int8.ofInt (x.toInt8.toInt - y.toInt8.toInt)

/-- The loop of `memcmp`, with `left` iterations until `ofs` is `n`. -/
def memcmpLoop (s1 s2 : List UInt8) : Nat → Nat → Int8 → Option Int8
  | 0, _, c1 => some c1
  | left + 1, ofs, _ => do
      let x ← s1[ofs]?
      let y ← s2[ofs]?
      let c1 := charDiff x y
      if c1 = 0 then memcmpLoop s1 s2 left (ofs + 1) c1 else some c1

/-- `none` is an access behind the bytes of an argument. -/
def memcmp (s1 s2 : List UInt8) (n : Nat) : Option Int :=
  (memcmpLoop s1 s2 n 0 0).map Int8.toInt

/-- The first two bytes that differ. -/
def firstDifference (a b : List UInt8) : Option (UInt8 × UInt8) :=
  (a.zip b).find? fun p => p.1 != p.2

/-- The first two bytes that differ lie within the range of a signed `char`. -/
def close (a b : List UInt8) : Bool :=
  (firstDifference a b).all fun p =>
    decide (-128 ≤ (p.1.toNat : Int) - p.2.toNat ∧ (p.1.toNat : Int) - p.2.toNat ≤ 127)

section Difference
variable {x y : UInt8} {a b : List UInt8}

theorem firstDifference_cons (x y : UInt8) (a b : List UInt8) :
    firstDifference (x :: a) (y :: b) = if x = y then firstDifference a b else some (x, y) := by
  rw [firstDifference, List.zip_cons_cons, List.find?_cons]
  by_cases same : x = y
  · simp [same, firstDifference]
  · rw [if_neg same, show (x != y) = true by simpa using same]

theorem charDiff_toInt (x y : UInt8) :
    (charDiff x y).toInt = ((x.toNat : Int) - y.toNat).bmod 256 := by
  have signed : ∀ x : UInt8, x.toInt8.toInt = (x.toNat : Int).bmod 256 := fun x =>
    BitVec.toInt_eq_toNat_bmod x.toBitVec
  rw [charDiff, Int8.toInt_ofInt, signed, signed]
  simp [Int8.size]

theorem charDiff_eq_zero : charDiff x y = 0 ↔ x = y := by
  rw [← Int8.toInt_inj, charDiff_toInt, ← UInt8.toNat_inj]
  have left := x.toNat_lt
  have right := y.toNat_lt
  simp only [Int.bmod, Int8.toInt_zero]
  split <;> omega

/-- The sign is right exactly when the difference fits. -/
theorem charDiff_sign (x y : UInt8) :
    ((charDiff x y).toInt < 0 ↔ x < y) ∧ (0 < (charDiff x y).toInt ↔ y < x) ↔
      -128 ≤ (x.toNat : Int) - y.toNat ∧ (x.toNat : Int) - y.toNat ≤ 127 := by
  have left := x.toNat_lt
  have right := y.toNat_lt
  rw [charDiff_toInt, UInt8.lt_iff_toNat_lt, UInt8.lt_iff_toNat_lt]
  simp only [Int.bmod]
  split <;> omega

end Difference

/-- The result has the sign of the lexicographic comparison of unsigned bytes. -/
def Compares (r : Int) (a b : List UInt8) : Prop :=
  (r < 0 ↔ a < b) ∧ (r = 0 ↔ a = b) ∧ (0 < r ↔ b < a)

section Comparison
variable {a b : List UInt8}

theorem memcmpLoop_spec (first : ofs + left = a.length) (second : ofs + left = b.length) :
    memcmpLoop a b left ofs 0 =
      some ((firstDifference (a.drop ofs) (b.drop ofs)).elim 0 fun p => charDiff p.1 p.2) := by
  induction left generalizing ofs with
  | zero =>
    rw [List.drop_of_length_le (by omega), List.drop_of_length_le (by omega)]
    rfl
  | succ left ih =>
    have inA : ofs < a.length := by omega
    have inB : ofs < b.length := by omega
    rw [List.drop_eq_getElem_cons inA, List.drop_eq_getElem_cons inB, firstDifference_cons,
      memcmpLoop, List.getElem?_eq_getElem inA, List.getElem?_eq_getElem inB]
    simp only [Option.bind_eq_bind, Option.bind_some]
    split
    · rename_i same
      rw [same, ih (by omega) (by omega), if_pos (charDiff_eq_zero.mp same)]
    · rename_i differ
      rw [if_neg (mt charDiff_eq_zero.mpr differ)]
      rfl

theorem memcmp_eq (common : a.length = b.length) :
    memcmp a b a.length =
      some ((firstDifference a b).elim 0 fun p => (charDiff p.1 p.2).toInt) := by
  rw [memcmp, memcmpLoop_spec (Nat.zero_add _) (by rw [Nat.zero_add, common]), List.drop_zero,
    List.drop_zero, Option.map_some]
  cases firstDifference a b <;> rfl

/-- The first difference decides the order. -/
theorem compares_firstDifference (common : a.length = b.length) (r : Int) :
    Compares r a b ↔
      match firstDifference a b with
      | none => r = 0
      | some (x, y) => x ≠ y ∧ (r < 0 ↔ x < y) ∧ r ≠ 0 ∧ (0 < r ↔ y < x) := by
  induction a generalizing b with
  | nil =>
    cases List.length_eq_zero_iff.mp common.symm
    simp only [Compares, firstDifference, List.zip_nil_left, List.find?_nil, List.not_lt_nil,
      iff_false, iff_true]
    omega
  | cons x a ih =>
    obtain ⟨y, b, rfl⟩ := List.exists_cons_of_length_eq_add_one common.symm
    rw [firstDifference_cons]
    by_cases same : x = y
    · subst same
      rw [if_pos rfl, ← ih (by simpa using common)]
      simp [Compares]
    · rw [if_neg same]
      simp [Compares, List.cons_lt_cons_iff, same, Ne.symm same]

/-- For two strings the sign is right exactly when they are close. -/
theorem memcmp_compares (common : a.length = b.length) :
    (∃ r, memcmp a b a.length = some r ∧ Compares r a b) ↔ close a b = true := by
  rw [memcmp_eq common, close]
  simp only [Option.some.injEq, exists_eq_left', compares_firstDifference common]
  cases found : firstDifference a b with
  | none => simp
  | some p =>
    have differ : p.1 ≠ p.2 := by simpa using List.find?_some found
    have nonzero : (charDiff p.1 p.2).toInt ≠ 0 := fun zero =>
      differ (charDiff_eq_zero.mp (Int8.toInt_inj.mp zero))
    simp only [Option.elim_some, Option.all_some, decide_eq_true_eq, ← charDiff_sign]
    constructor
    · rintro ⟨-, less, -, more⟩
      exact ⟨less, more⟩
    · rintro ⟨less, more⟩
      exact ⟨differ, less, nonzero, more⟩

end Comparison

def LessOrEqual (n : Nat) (a b : List UInt8) : Prop := ∃ r, memcmp a b n = some r ∧ r ≤ 0

/-- `memcmp` orders the strings of a set, all of length `n`, lexicographically. -/
structure Orders (n : Nat) (S : Set (List UInt8)) : Prop where
  compares : ∀ a ∈ S, ∀ b ∈ S, ∃ r, memcmp a b n = some r ∧ Compares r a b
  swaps : ∀ a ∈ S, ∀ b ∈ S, ∃ r r', memcmp a b n = some r ∧ memcmp b a n = some r' ∧
    r'.sign = -r.sign
  transitive : ∀ a ∈ S, ∀ b ∈ S, ∀ c ∈ S, LessOrEqual n a b → LessOrEqual n b c →
    LessOrEqual n a c

section Orders
variable {S : Set (List UInt8)} {a b : List UInt8}

theorem Compares.swap (forth : Compares r a b) (back : Compares r' b a) : r'.sign = -r.sign := by
  obtain ⟨less, equal, more⟩ := forth
  obtain ⟨less', equal', more'⟩ := back
  rcases Int.lt_trichotomy r 0 with below | same | above
  · rw [Int.sign_eq_neg_one_of_neg below, Int.sign_eq_one_of_pos (more'.mpr (less.mp below))]
    rfl
  · rw [same, equal'.mpr (equal.mp same).symm]
    rfl
  · rw [Int.sign_eq_one_of_pos above, Int.sign_eq_neg_one_of_neg (less'.mpr (more.mp above))]

theorem Compares.le_iff (compares : Compares r a b) : r ≤ 0 ↔ a ≤ b := by
  rw [← Int.not_lt, compares.2.2, List.not_lt]

theorem orders_of_compares
    (compares : ∀ a ∈ S, ∀ b ∈ S, ∃ r, memcmp a b n = some r ∧ Compares r a b) : Orders n S := by
  have le_iff : ∀ a ∈ S, ∀ b ∈ S, LessOrEqual n a b ↔ a ≤ b := by
    intro a inA b inB
    obtain ⟨r, ran, sign⟩ := compares a inA b inB
    rw [LessOrEqual, ← sign.le_iff]
    simp [ran]
  refine ⟨compares, ?_, ?_⟩
  · intro a inA b inB
    obtain ⟨r, ran, forth⟩ := compares a inA b inB
    obtain ⟨r', ran', back⟩ := compares b inB a inA
    exact ⟨r, r', ran, ran', forth.swap back⟩
  · intro a inA b inB c inC first second
    rw [le_iff a inA b inB] at first
    rw [le_iff b inB c inC] at second
    rw [le_iff a inA c inC]
    exact List.le_trans first second

end Orders

/-- The sign is that of the lexicographic comparison for two strings exactly when they
are close, and an order on a set of strings exactly when any two of them are. -/
theorem memcmp_orders_iff (n : Nat) :
    (∀ a b, a.length = n → b.length = n →
      ((∃ r, memcmp a b n = some r ∧ Compares r a b) ↔ close a b = true)) ∧
    ∀ S : Set (List UInt8), (∀ s ∈ S, s.length = n) →
      (Orders n S ↔ ∀ a ∈ S, ∀ b ∈ S, close a b = true) := by
  have pair : ∀ a b : List UInt8, a.length = n → b.length = n →
      ((∃ r, memcmp a b n = some r ∧ Compares r a b) ↔ close a b = true) := by
    rintro a b rfl common
    exact memcmp_compares common.symm
  refine ⟨pair, ?_⟩
  intro S common
  constructor
  · intro orders a inA b inB
    exact (pair a b (common a inA) (common b inB)).mp (orders.compares a inA b inB)
  · intro near
    apply orders_of_compares
    intro a inA b inB
    exact (pair a b (common a inA) (common b inB)).mpr (near a inA b inB)

/-- Two words that differ in their last letters. -/
theorem memcmp_orders_words :
    ∃ r, memcmp [99, 97, 116] [99, 97, 98] 3 = some r ∧ Compares r [99, 97, 116] [99, 97, 98] ∧
      r = 18 := by
  obtain ⟨r, ran, compares⟩ :=
    ((memcmp_orders_iff 3).1 [99, 97, 116] [99, 97, 98] rfl rfl).mpr (by decide)
  have evaluated : memcmp [99, 97, 116] [99, 97, 98] 3 = some 18 := by decide
  exact ⟨r, ran, compares, Option.some.inj (ran.symm.trans evaluated)⟩

/-- Neither the sign nor the laws of an order hold for bytes that are far apart. -/
theorem memcmp_wraps :
    (∃ r, memcmp [0] [200] 1 = some r ∧ ¬Compares r [0] [200]) ∧
    (memcmp [0] [128] 1 = some (-128) ∧ memcmp [128] [0] 1 = some (-128)) ∧
    LessOrEqual 1 [0] [100] ∧ LessOrEqual 1 [100] [200] ∧ ¬LessOrEqual 1 [0] [200] := by
  have far : memcmp [0] [200] 1 = some 56 := by decide
  refine ⟨⟨56, far, ?_⟩, by decide, ⟨-100, by decide, by decide⟩, ⟨-100, by decide, by decide⟩, ?_⟩
  · intro compares
    exact absurd (compares.1.mpr (by decide)) (by decide)
  · rintro ⟨r, ran, small⟩
    rw [far] at ran
    cases ran
    exact absurd small (by decide)

end MinLinux.Util
