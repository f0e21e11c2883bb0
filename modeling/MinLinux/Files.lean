import Mathlib.Data.List.Basic
import Mathlib.Logic.Function.Basic

/-! Descriptor tables. A new descriptor is the lowest that is free, `dup3` puts one where
it is told to, and execution keeps those that are not marked close-on-exec. What a
descriptor refers to is arbitrary. -/
namespace MinLinux.Files

structure Entry (F : Type) where
  file : F
  cloexec : Bool
deriving DecidableEq

/-- The descriptors of a process that may have those below `limit`. -/
@[ext] structure Table (limit : Nat) (F : Type) where
  entry : Nat → Option (Entry F)
  within : ∀ fd, limit ≤ fd → entry fd = none

namespace Table
variable {limit : Nat} {F : Type}

def empty : Table limit F := ⟨fun _ => none, fun _ _ => rfl⟩

def set (t : Table limit F) (fd : Nat) (inside : fd < limit) (e : Entry F) : Table limit F where
  entry := Function.update t.entry fd (some e)
  within n above := by
    rw [Function.update_of_ne (by omega)]
    exact t.within n above

/-- The descriptors that are not closed. -/
def keep (t : Table limit F) (kept : Nat → Entry F → Bool) : Table limit F where
  entry fd := (t.entry fd).filter (kept fd)
  within n above := by
    rw [t.within n above]
    rfl

/-- `none` is a descriptor the kernel would not return. -/
def alloc (t : Table limit F) (fd : Nat) (e : Entry F) : Option (Table limit F) :=
  if inside : fd < limit then
    if (t.entry fd).isNone && (List.range fd).all fun n => (t.entry n).isSome then
      some (t.set fd inside e)
    else none
  else none

/-- `dup3` without flags; `none` is a call that fails. -/
def dup (t : Table limit F) (old new : Nat) : Option (Table limit F) :=
  match t.entry old with
  | none => none
  | some e =>
      if inside : new < limit then
        if old = new then none else some (t.set new inside ⟨e.file, false⟩)
      else none

def close (t : Table limit F) (fd : Nat) : Table limit F := t.keep fun n _ => n != fd

def closeRange (t : Table limit F) (first last : Nat) : Table limit F :=
  t.keep fun n _ => decide (n < first) || decide (last < n)

def exec (t : Table limit F) : Table limit F := t.keep fun _ e => !e.cloexec

@[simp] theorem set_entry (t : Table limit F) (inside : fd < limit) (e : Entry F) :
    (t.set fd inside e).entry = Function.update t.entry fd (some e) := rfl

theorem close_entry (t : Table limit F) (fd n : Nat) :
    (t.close fd).entry n = if n = fd then none else t.entry n := by
  simp only [close, keep]
  by_cases same : n = fd
  · cases t.entry n <;> simp [same]
  · cases t.entry n <;> simp [same]

/-- The descriptor was free, and all below it were not. -/
theorem alloc_eq_some {t t' : Table limit F} : t.alloc fd e = some t' ↔
    t.entry fd = none ∧ (∀ n < fd, t.entry n ≠ none) ∧ ∃ inside, t' = t.set fd inside e := by
  simp only [alloc]
  split
  · rename_i inside
    simp [inside, and_assoc, Option.isSome_iff_ne_none, eq_comm (b := t')]
  · rename_i outside
    simp [outside]

theorem alloc_entry {t t' : Table limit F} (opened : t.alloc fd e = some t') :
    t'.entry = Function.update t.entry fd (some e) := by
  obtain ⟨-, -, inside, rfl⟩ := alloc_eq_some.mp opened
  rfl

/-- Both descriptors name one file from then on. -/
theorem dup_eq_some {t t' : Table limit F} : t.dup old new = some t' ↔
    old ≠ new ∧ ∃ e inside, t.entry old = some e ∧ t' = t.set new inside ⟨e.file, false⟩ := by
  simp only [dup]
  cases found : t.entry old with
  | none => simp
  | some e =>
    dsimp only
    split
    · rename_i inside
      by_cases same : old = new
      · simp [same]
      · simp [same, inside, eq_comm]
    · rename_i outside
      simp [outside]

/-- The descriptors are the positions of a list. -/
def Names (t : Table limit F) (entries : List (Entry F)) : Prop := ∀ fd, t.entry fd = entries[fd]?

section Names
variable {t t' : Table limit F} {entries : List (Entry F)}

theorem getElem?_snoc (l : List α) (a : α) (n : Nat) :
    (l ++ [a])[n]? = if n = l.length then some a else l[n]? := by
  rcases Nat.lt_trichotomy n l.length with below | rfl | above
  · rw [List.getElem?_append_left below, if_neg (by omega)]
  · simp
  · have outside : (l ++ [a]).length ≤ n := by
      rw [List.length_append, List.length_singleton]
      omega
    rw [List.getElem?_eq_none outside, if_neg (by omega), List.getElem?_eq_none (by omega)]

/-- No descriptor lies above the range. -/
theorem closeRange_names (t : Table limit F) (all : limit ≤ last + 1) :
    (t.closeRange 0 last).Names [] := by
  intro fd
  by_cases inside : fd < limit
  · have kept : ¬ last < fd := by omega
    cases found : t.entry fd <;> simp [closeRange, keep, found, kept]
  · simp [closeRange, keep, t.within fd (by omega)]

theorem Names.alloc (names : t.Names entries) (opened : t.alloc fd e = some t') :
    fd = entries.length ∧ t'.Names (entries ++ [e]) := by
  obtain ⟨free, taken, inside, rfl⟩ := alloc_eq_some.mp opened
  have lowest : fd = entries.length := by
    rw [names, List.getElem?_eq_none_iff] at free
    by_contra above
    have unused := List.getElem?_eq_none (Nat.le_refl entries.length)
    exact taken entries.length (by omega) ((names _).trans unused)
  refine ⟨lowest, fun n => ?_⟩
  rw [set_entry, Function.update_apply, getElem?_snoc, lowest, names]

/-- A copy just behind the last descriptor. -/
theorem Names.dup (names : t.Names entries) (copied : t.dup old entries.length = some t') :
    ∃ e, entries[old]? = some e ∧ t'.Names (entries ++ [⟨e.file, false⟩]) := by
  obtain ⟨-, e, inside, found, rfl⟩ := dup_eq_some.mp copied
  refine ⟨e, by rwa [← names], ?_⟩
  have room : t.alloc entries.length ⟨e.file, false⟩ = some (t.set _ inside ⟨e.file, false⟩) := by
    refine alloc_eq_some.mpr ⟨?_, ?_, inside, rfl⟩
    · exact (names _).trans (List.getElem?_eq_none (Nat.le_refl _))
    · intro n below
      rw [names, List.getElem?_eq_getElem below]
      exact Option.some_ne_none _
  exact (names.alloc room).2

/-- Execution drops the descriptors at the end that are marked, and no others. -/
theorem Names.exec (names : t.Names (entries ++ m)) (kept : ∀ e ∈ entries, e.cloexec = false)
    (dropped : ∀ e ∈ m, e.cloexec = true) : t.exec.Names entries := by
  intro fd
  simp only [Table.exec, keep, names fd]
  by_cases below : fd < entries.length
  · rw [List.getElem?_append_left below, List.getElem?_eq_getElem below]
    simp [kept _ (List.getElem_mem below)]
  · rw [List.getElem?_append_right (by omega), List.getElem?_eq_none (l := entries) (by omega)]
    cases found : m[fd - entries.length]? with
    | none => rfl
    | some e => simp [dropped e (List.mem_of_getElem? found)]

end Names
end Table
end MinLinux.Files
