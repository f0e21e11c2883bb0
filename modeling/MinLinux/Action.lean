import Mathlib.Data.List.Basic

/-! Actions on a world that may raise, in sequence and over the elements of a list. An
exception leaves the world as it is and skips the rest. -/
namespace MinLinux

/-- The result `false` is an exception. -/
def Action (W : Type) : Type := W → Bool × W

namespace Action
variable {W α : Type}

def andThen (first second : Action W) : Action W := fun w =>
  if (first w).1 then second (first w).2 else first w

/-- A loop that raises at the first element whose action does. -/
def each (f : α → Action W) : List α → Action W
  | [] => fun w => (true, w)
  | a :: rest => (f a).andThen (each f rest)

theorem andThen_returns {first second : Action W} :
    ((first.andThen second) w).1 = true ↔
      (first w).1 = true ∧ (second (first w).2).1 = true := by
  rw [andThen]
  split
  · rename_i returned
    simp [returned]
  · rename_i raised
    simp [raised]

theorem andThen_world {first second : Action W} (returned : (first w).1 = true) :
    (first.andThen second) w = second (first w).2 := if_pos returned

/-- The property holds after the action, whether it returns or raises. -/
def Keeps (I : W → Prop) (f : Action W) : Prop := ∀ w, I w → I (f w).2

section Rules
variable {I : W → Prop} {first second : Action W} {f : α → Action W} {l : List α}

theorem Keeps.andThen (kept : Keeps I first) (later : Keeps I second) :
    Keeps I (first.andThen second) := by
  intro w holds
  rw [Action.andThen]
  split
  · exact later _ (kept w holds)
  · exact kept w holds

theorem Keeps.each (kept : ∀ a ∈ l, Keeps I (f a)) : Keeps I (each f l) := by
  induction l with
  | nil => exact fun _ => id
  | cons a rest ih =>
    obtain ⟨first, others⟩ := List.forall_mem_cons.mp kept
    exact first.andThen (ih others)

/-- What an element achieves, and no element undoes, is achieved for all of them. -/
theorem each_achieves {D : α → W → Prop} (kept : ∀ a ∈ l, Keeps I (f a))
    (achieves : ∀ a ∈ l, ∀ w, I w → (f a w).1 = true → D a (f a w).2)
    (lasts : ∀ a ∈ l, ∀ b, Keeps (fun w => I w ∧ D b w) (f a)) (holds : I w)
    (returned : (each f l w).1 = true) : ∀ a ∈ l, D a (each f l w).2 := by
  induction l generalizing w with
  | nil => exact nofun
  | cons a rest ih =>
    obtain ⟨kept_a, kept⟩ := List.forall_mem_cons.mp kept
    obtain ⟨achieves_a, achieves⟩ := List.forall_mem_cons.mp achieves
    obtain ⟨-, lasts⟩ := List.forall_mem_cons.mp lasts
    obtain ⟨first, others⟩ := andThen_returns.mp returned
    simp only [each, andThen_world first, List.forall_mem_cons]
    constructor
    · have done := achieves_a w holds first
      exact (Keeps.each (fun b member => lasts b member a) _ ⟨kept_a w holds, done⟩).2
    · exact ih kept achieves lasts (kept_a w holds) others

theorem each_returns (returns : ∀ a ∈ l, ∀ w, I w → (f a w).1 = true)
    (kept : ∀ a ∈ l, Keeps I (f a)) (holds : I w) : (each f l w).1 = true := by
  induction l generalizing w with
  | nil => rfl
  | cons a rest ih =>
    obtain ⟨returns_a, returns⟩ := List.forall_mem_cons.mp returns
    obtain ⟨kept_a, kept⟩ := List.forall_mem_cons.mp kept
    apply andThen_returns.mpr
    exact ⟨returns_a w holds, ih returns kept (kept_a w holds)⟩

end Rules
end Action
end MinLinux
