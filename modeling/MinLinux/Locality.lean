import MinLinux.Dialog

/-! Programs that stay inside their state. The state is a list here, and a program is
confined to it when nothing behind the end of the list, whatever it is, makes a
difference to the program or is changed by it. -/
namespace MinLinux.Dialog
variable {Q R S E α β γ : Type}

/-- The program neither reads its state nor writes it, and stops only as `A` allows. -/
def Blind (A : E → Prop) (m : Dialog Q R S E α) : Prop :=
  ∀ w, (∀ s, m { w with state := s } = ((m w).1, { (m w).2 with state := s })) ∧
    ∀ e, (m w).1 = .error e → A e

namespace Blind
variable {A : E → Prop} {m : Dialog Q R S E α}

theorem keeps (blind : Blind A m) (w : World Q R S) : (m w).2.state = w.state :=
  congrArg (fun out => out.2.state) ((blind w).1 w.state)

theorem pure (a : α) : Blind A (Pure.pure a : Dialog Q R S E α) :=
  fun _ => ⟨fun _ => rfl, nofun⟩

theorem stop {e : E} (allowed : A e) : Blind A (Dialog.stop e : Dialog Q R S E α) :=
  fun _ => ⟨fun _ => rfl, fun _ same => Except.error.inj same ▸ allowed⟩

theorem budget : Blind A (Dialog.budget : Dialog Q R S E Nat) :=
  fun _ => ⟨fun _ => rfl, nofun⟩

theorem ask {e : E} (allowed : A e) (q : Q) : Blind A (Dialog.ask e q : Dialog Q R S E R) := by
  rintro ⟨state, answers, asked⟩
  cases answers with
  | nil => exact ⟨fun _ => rfl, fun _ same => Except.error.inj same ▸ allowed⟩
  | cons r rest => exact ⟨fun _ => rfl, nofun⟩

theorem bind {f : α → Dialog Q R S E β} (first : Blind A m) (next : ∀ a, Blind A (f a)) :
    Blind A (m >>= f) := by
  intro w
  obtain ⟨same, stops⟩ := first w
  rcases ran : m w with ⟨e | a, after⟩
  · rw [ran] at same stops
    rw [bind_error f ran]
    exact ⟨fun s => bind_error f (same s), fun _ stopped => Except.error.inj stopped ▸ stops e rfl⟩
  · rw [ran] at same
    rw [bind_ok f ran]
    refine ⟨fun s => ?_, (next a after).2⟩
    rw [bind_ok f (same s)]
    exact (next a after).1 s

end Blind

section Lists
variable {S : Type} {m : Dialog Q R (List S) E α} {A : E → Prop}

def World.extend (w : World Q R (List S)) (tail : List S) : World Q R (List S) :=
  { w with state := w.state ++ tail }

/-- A run that returns does the same in front of any further elements. -/
def Extends (m : Dialog Q R (List S) E α) : Prop :=
  ∀ w a w', m w = (.ok a, w') → ∀ tail, m (w.extend tail) = (.ok a, w'.extend tail)

/-- From this world the run is the same in front of any further elements, however it
ends, and leaves them alone. -/
def Confined (A : E → Prop) (m : Dialog Q R (List S) E α) (w : World Q R (List S)) : Prop :=
  (∀ tail, m (w.extend tail) = ((m w).1, (m w).2.extend tail)) ∧
    ∀ e, (m w).1 = .error e → A e

theorem Blind.confined (blind : Blind A m) (w : World Q R (List S)) : Confined A m w := by
  refine ⟨fun tail => ?_, (blind w).2⟩
  rw [World.extend, (blind w).1, World.extend, blind.keeps]

namespace Extends

theorem pure (a : α) : Extends (Pure.pure a : Dialog Q R (List S) E α) := by
  rintro w _ _ ⟨⟩ tail
  rfl

theorem stop (e : E) : Extends (Dialog.stop e : Dialog Q R (List S) E α) := nofun

theorem bind {f : α → Dialog Q R (List S) E β} (first : Extends m) (next : ∀ a, Extends (f a)) :
    Extends (m >>= f) := by
  intro w b w'' ran tail
  obtain ⟨a, w', ran', later⟩ := bind_returns.mp ran
  rw [bind_ok f (first w a w' ran' tail)]
  exact next a w' b w'' later tail

theorem confined (extend : Extends m) (ran : m w = (.ok a, w')) : Confined A m w := by
  refine ⟨fun tail => ?_, ?_⟩
  · rw [extend w a w' ran tail, ran]
  · rw [ran]
    exact nofun

end Extends

namespace Confined
variable {w : World Q R (List S)}

theorem pure (a : α) : Confined A (Pure.pure a : Dialog Q R (List S) E α) w :=
  (Blind.pure a).confined w

theorem bind {f : α → Dialog Q R (List S) E β} (first : Confined A m w)
    (next : ∀ a w', m w = (.ok a, w') → Confined A (f a) w') : Confined A (m >>= f) w := by
  obtain ⟨same, stops⟩ := first
  rcases ran : m w with ⟨e | a, after⟩
  · rw [ran] at same stops
    refine ⟨fun tail => ?_, ?_⟩
    · rw [bind_error f (same tail), bind_error f ran]
    · rw [bind_error f ran]
      exact fun _ stopped => Except.error.inj stopped ▸ stops e rfl
  · rw [ran] at same
    obtain ⟨same', stops'⟩ := next a after ran
    refine ⟨fun tail => ?_, ?_⟩
    · rw [bind_ok f (same tail), bind_ok f ran]
      exact same' tail
    · rw [bind_ok f ran]
      exact stops'

/-- After a first part that is known to return. -/
theorem after {f : α → Dialog Q R (List S) E β} (extend : Extends m) (ran : m w = (.ok a, w'))
    (next : Confined A (f a) w') : Confined A (m >>= f) w := by
  refine bind (extend.confined ran) fun a' after same => ?_
  cases ran.symm.trans same
  exact next

/-- After a first part that leaves the state alone. -/
theorem blind {f : α → Dialog Q R (List S) E β} (first : Blind A m)
    (next : ∀ a v, v.state = w.state → Confined A (f a) v) : Confined A (m >>= f) w := by
  refine bind (first.confined w) fun a after ran => next a after ?_
  have kept := first.keeps w
  rwa [ran] at kept

end Confined
end Lists
end MinLinux.Dialog
