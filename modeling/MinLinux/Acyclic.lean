import Mathlib.Data.Set.Card
import Mathlib.Logic.Relation

/-! Finite acyclic graphs. The number of vertices that can be reached from a vertex
falls along every edge, which bounds the length of every chain. -/
namespace MinLinux.Acyclic
open Relation
variable {V : Type} {Edge : V → V → Prop}

/-- No vertex can be reached from itself along one or more edges. -/
def IsAcyclic (Edge : V → V → Prop) : Prop := ∀ v, ¬ TransGen Edge v v

noncomputable def rank (Edge : V → V → Prop) (v : V) : Nat := {u | TransGen Edge v u}.ncard

theorem rank_lt [Finite V] (acyclic : IsAcyclic Edge) (edge : Edge v u) :
    rank Edge u < rank Edge v := by
  refine Set.ncard_lt_ncard ?_ (Set.toFinite _)
  constructor
  · intro x reached
    exact TransGen.head edge reached
  · intro subset
    exact acyclic u (subset (TransGen.single edge))

theorem rank_le_card [Finite V] (v : V) : rank Edge v ≤ Nat.card V :=
  Set.ncard_le_card _

end MinLinux.Acyclic
