import Mathlib.Algebra.Group.Nat.Defs
import Mathlib.Data.Fin.Basic

/-! Byte memory of a fixed size, objects of several bytes in it, and numbers stored with
their least significant byte first. An access that reaches behind the end is a fault. -/
namespace MinLinux.Bytes

/-- The bytes of an object. -/
abbrev Block (n : Nat) := Fin n → UInt8

/-- The object once a part of it has been stored to. -/
def patch (block : Block k) (p : Nat) (v : Block n) : Block k := fun i =>
  if inside : p ≤ i.val ∧ i.val - p < n then v ⟨i.val - p, inside.2⟩ else block i

/-- What stands behind the end is of no account. -/
structure Memory where
  size : Nat
  byte : Nat → UInt8

namespace Memory
variable {mem : Memory} {n k p q : Nat} {v : Block n}

/-- The object at an offset. -/
def view (mem : Memory) (p n : Nat) : Block n := fun i => mem.byte (p + i)

def write (mem : Memory) (p : Nat) (v : Block n) : Memory where
  size := mem.size
  byte a := if inside : p ≤ a ∧ a - p < n then v ⟨a - p, inside.2⟩ else mem.byte a

def load (mem : Memory) (p n : Nat) : Option (Block n) :=
  if p + n ≤ mem.size then some (mem.view p n) else none

def store (mem : Memory) (p : Nat) (v : Block n) : Option Memory :=
  if p + n ≤ mem.size then some (mem.write p v) else none

@[simp] theorem write_size (mem : Memory) (p : Nat) (v : Block n) :
    (mem.write p v).size = mem.size := rfl

theorem load_eq (inside : p + n ≤ mem.size) : mem.load p n = some (mem.view p n) :=
  if_pos inside

theorem store_eq (inside : p + n ≤ mem.size) : mem.store p v = some (mem.write p v) :=
  if_pos inside

theorem store_size (stored : mem.store p v = some mem') : mem'.size = mem.size := by
  obtain ⟨-, same⟩ := Option.ite_none_right_eq_some.mp stored
  cases same
  rfl

@[simp] theorem view_write (mem : Memory) (p : Nat) (v : Block n) :
    (mem.write p v).view p n = v := by
  funext i
  have inside : p ≤ p + i.val ∧ p + i.val - p < n := by omega
  exact (dif_pos inside).trans (congrArg v (Fin.ext (Nat.add_sub_cancel_left p i.val)))

/-- Objects that do not overlap do not see each other's stores. -/
theorem view_write_apart (mem : Memory) (v : Block n) (apart : q + k ≤ p ∨ p + n ≤ q) :
    (mem.write p v).view q k = mem.view q k := by
  funext i
  have outside : ¬(p ≤ q + i.val ∧ q + i.val - p < n) := by omega
  exact dif_neg outside

theorem view_write_within (mem : Memory) (q p : Nat) (v : Block n) :
    (mem.write (q + p) v).view q k = patch (mem.view q k) p v := by
  funext i
  rw [patch]
  split
  · have shifted : q + p ≤ q + i.val ∧ q + i.val - (q + p) < n := by omega
    exact (dif_pos shifted).trans (congrArg v (Fin.ext (Nat.add_sub_add_left q i.val p)))
  · have outside : ¬(q + p ≤ q + i.val ∧ q + i.val - (q + p) < n) := by omega
    exact dif_neg outside

end Memory

section LittleEndian
variable {n : Nat}

def littleEndian (n value : Nat) : Block n := fun i => UInt8.ofNat (value / 256 ^ i.val)

def ofLittleEndian : {n : Nat} → Block n → Nat
  | 0, _ => 0
  | _ + 1, block => (block 0).toNat + 256 * ofLittleEndian fun i => block i.succ

theorem ofLittleEndian_littleEndian (n value : Nat) :
    ofLittleEndian (littleEndian n value) = value % 256 ^ n := by
  induction n generalizing value with
  | zero => rw [ofLittleEndian, pow_zero, Nat.mod_one]
  | succ n ih =>
    have tail : (fun i : Fin n => littleEndian (n + 1) value i.succ) =
        littleEndian n (value / 256) := by
      funext i
      rw [littleEndian, littleEndian, Fin.val_succ, pow_succ', Nat.div_div_eq_div_mul]
    have first : (littleEndian (n + 1) value 0).toNat = value % 256 := by
      rw [littleEndian, Fin.val_zero, pow_zero, Nat.div_one, UInt8.toNat_ofNat']
    rw [ofLittleEndian, tail, ih, first, pow_succ', Nat.mod_mul]

end LittleEndian

section Parts
variable {block : Block k} {p q n j value : Nat}

/-- The number a part of an object holds. -/
def number (block : Block k) (p n : Nat) (inside : p + n ≤ k) : Nat :=
  ofLittleEndian fun i : Fin n => block ⟨p + i, by omega⟩

theorem number_patch (block : Block k) (inside : p + n ≤ k) (value : Nat) :
    number (patch block p (littleEndian n value)) p n inside = value % 256 ^ n := by
  rw [← ofLittleEndian_littleEndian, number]
  congr 1
  funext i
  have within : p ≤ p + i.val ∧ p + i.val - p < n := by omega
  exact (dif_pos within).trans
    (congrArg (littleEndian n value) (Fin.ext (Nat.add_sub_cancel_left p i.val)))

theorem number_patch_apart (block : Block k) (v : Block n) (inside : q + j ≤ k)
    (apart : q + j ≤ p ∨ p + n ≤ q) : number (patch block p v) q j inside = number block q j inside := by
  rw [number, number]
  congr 1
  funext i
  have outside : ¬(p ≤ q + i.val ∧ q + i.val - p < n) := by omega
  exact dif_neg outside

theorem number_view (mem : Memory) (p q : Nat) (inside : q + j ≤ k) :
    number (mem.view p k) q j inside = ofLittleEndian (mem.view (p + q) j) := by
  rw [number]
  congr 1
  funext i
  exact congrArg mem.byte (Nat.add_assoc p q i.val).symm

end Parts

end MinLinux.Bytes
