import MinLinux.Locality

/-! A program and what is left of it without its state. The state is private, so from
the outside a run is its result and its conversation. -/
namespace MinLinux.Dialog
variable {Q R S E α β : Type}

/-- From this world the first program does, on its state, what the second one does
without looking at any. -/
def Mirrors (m m' : Dialog Q R S E α) (w : World Q R S) : Prop :=
  ∀ s, m' { w with state := s } = ((m w).1, { (m w).2 with state := s })

theorem Blind.mirrors {A : E → Prop} {m : Dialog Q R S E α} (blind : Blind A m)
    (w : World Q R S) : Mirrors m m w := (blind w).1

namespace Mirrors
variable {m m' : Dialog Q R S E α} {f f' : α → Dialog Q R S E β} {w : World Q R S}

theorem outcome (mirrors : Mirrors m m' w) (s : S) : (m w).1 = (m' { w with state := s }).1 :=
  (congrArg Prod.fst (mirrors s)).symm

theorem asked (mirrors : Mirrors m m' w) (s : S) :
    (m w).2.asked = (m' { w with state := s }).2.asked :=
  (congrArg (fun out => out.2.asked) (mirrors s)).symm

theorem answers (mirrors : Mirrors m m' w) (s : S) :
    (m w).2.answers = (m' { w with state := s }).2.answers :=
  (congrArg (fun out => out.2.answers) (mirrors s)).symm

theorem bind (first : Mirrors m m' w)
    (next : ∀ a v, m w = (.ok a, v) → Mirrors (f a) (f' a) v) :
    Mirrors (m >>= f) (m' >>= f') w := by
  intro s
  have same := first s
  rcases ran : m w with ⟨e | a, v⟩
  · rw [ran] at same
    rw [bind_error f ran, bind_error f' same]
  · rw [ran] at same
    rw [bind_ok f ran, bind_ok f' same]
    exact next a v ran s

/-- Behind a part that both have and that leaves the state alone. -/
theorem blind {A : E → Prop} (same : Blind A m)
    (next : ∀ a v, v.state = w.state → Mirrors (f a) (f' a) v) :
    Mirrors (m >>= f) (m >>= f') w := by
  apply bind (same.mirrors w)
  intro a v ran
  apply next a v
  have kept := same.keeps w
  rwa [ran] at kept

/-- A step on the state alone needs no counterpart. -/
theorem after {m' : Dialog Q R S E β} {s' : S} (ran : m w = (.ok a, { w with state := s' }))
    (next : Mirrors (f a) m' { w with state := s' }) : Mirrors (m >>= f) m' w := by
  intro s
  rw [bind_ok f ran]
  exact next s

end Mirrors
end MinLinux.Dialog
