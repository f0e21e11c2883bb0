import Mathlib.Data.List.Basic

/-! Sequential programs in dialogue with an environment. A program keeps a private
state, asks questions and may stop early; the environment is the list of the answers
it will give, so that every behaviour of it is some list. -/
namespace MinLinux

/-- `asked` is the conversation so far, oldest first. -/
structure Dialog.World (Q R S : Type) where
  state : S
  answers : List R
  asked : List (Q × R)

def Dialog (Q R S E α : Type) : Type :=
  Dialog.World Q R S → Except E α × Dialog.World Q R S

namespace Dialog
variable {Q R S E α β : Type}

instance : Monad (Dialog Q R S E) where
  pure a := fun w => (.ok a, w)
  bind m f := fun w =>
    match m w with
    | (.ok a, after) => f a after
    | (.error e, after) => (.error e, after)

def stop (e : E) : Dialog Q R S E α := fun w => (.error e, w)

def get : Dialog Q R S E S := fun w => (.ok w.state, w)

def put (s : S) : Dialog Q R S E Unit := fun w => (.ok (), { w with state := s })

/-- A question no answer is left for stops the program at `starved`. -/
def ask (starved : E) (q : Q) : Dialog Q R S E R := fun w =>
  match w.answers with
  | [] => (.error starved, w)
  | r :: rest => (.ok r, { w with answers := rest, asked := w.asked ++ [(q, r)] })

/-- A bound on the iterations of any loop that asks a question in each of them. -/
def budget : Dialog Q R S E Nat := fun w => (.ok (w.answers.length + 1), w)

@[simp] theorem pure_apply (a : α) (w : World Q R S) :
    (pure a : Dialog Q R S E α) w = (.ok a, w) := rfl

@[simp] theorem get_apply (w : World Q R S) :
    (get : Dialog Q R S E S) w = (.ok w.state, w) := rfl

@[simp] theorem budget_apply (w : World Q R S) :
    (budget : Dialog Q R S E Nat) w = (.ok (w.answers.length + 1), w) := rfl

theorem bind_ok {m : Dialog Q R S E α} (f : α → Dialog Q R S E β) (ran : m w = (.ok a, w')) :
    (m >>= f) w = f a w' := by
  simp only [bind, ran]

theorem bind_error {m : Dialog Q R S E α} (f : α → Dialog Q R S E β)
    (ran : m w = (.error e, w')) : (m >>= f) w = (.error e, w') := by
  simp only [bind, ran]

theorem bind_assoc (m : Dialog Q R S E α) (f : α → Dialog Q R S E β)
    (g : β → Dialog Q R S E γ) : (m >>= f) >>= g = m >>= fun a => f a >>= g := by
  funext w
  rcases ran : m w with ⟨e | a, after⟩ <;> simp only [bind, ran]

theorem pure_bind (a : α) (f : α → Dialog Q R S E β) : pure a >>= f = f a := rfl

/-- A loop over a list in two parts. -/
theorem forM_append (f : γ → Dialog Q R S E PUnit) (l l' : List γ) :
    (l ++ l').forM f = l.forM f >>= fun _ => l'.forM f := by
  induction l with
  | nil => rfl
  | cons c l ih =>
    have first : ∀ rest, (c :: rest).forM f = f c >>= fun _ => rest.forM f := fun _ => rfl
    rw [List.cons_append, first, first, ih, bind_assoc]

/-- A program returns past `>>=` only by returning from both sides. -/
theorem bind_returns {m : Dialog Q R S E α} {f : α → Dialog Q R S E β} :
    (m >>= f) w = (.ok b, w'') ↔ ∃ a w', m w = (.ok a, w') ∧ f a w' = (.ok b, w'') := by
  simp only [bind]
  split
  · rename_i a after ran
    constructor
    · intro returned
      exact ⟨a, after, ran, returned⟩
    · rintro ⟨_, _, same, returned⟩
      cases ran.symm.trans same
      exact returned
  · rename_i e after ran
    constructor
    · intro returned
      cases returned
    · rintro ⟨_, _, same, -⟩
      cases ran.symm.trans same

theorem ask_returns : (ask e q : Dialog Q R S E R) w = (.ok r, w') ↔
    ∃ rest, w.answers = r :: rest ∧ w' = { w with answers := rest, asked := w.asked ++ [(q, r)] } := by
  simp only [ask]
  split
  · rename_i none
    simp [none]
  · rename_i first rest some
    constructor
    · intro returned
      cases returned
      exact ⟨rest, some, rfl⟩
    · rintro ⟨_, same, rfl⟩
      cases some.symm.trans same
      rfl

/-- From states in `I` the program stays in `I`, and every exchange it adds to the
conversation satisfies `P`, however it ends. -/
def Emits (I : S → Prop) (P : Q × R → Prop) (m : Dialog Q R S E α) : Prop :=
  ∀ w, I w.state →
    I (m w).2.state ∧ ∃ new, (m w).2.asked = w.asked ++ new ∧ ∀ e ∈ new, P e

namespace Emits
variable {I : S → Prop} {P : Q × R → Prop} {m : Dialog Q R S E α}

theorem pure (a : α) : Emits I P (Pure.pure a : Dialog Q R S E α) :=
  fun _ inside => ⟨inside, [], (List.append_nil _).symm, by simp⟩

theorem stop (e : E) : Emits I P (Dialog.stop e : Dialog Q R S E α) :=
  fun _ inside => ⟨inside, [], (List.append_nil _).symm, by simp⟩

theorem budget : Emits I P (Dialog.budget : Dialog Q R S E Nat) :=
  fun _ inside => ⟨inside, [], (List.append_nil _).symm, by simp⟩

theorem put {s : S} (inside : I s) : Emits I P (Dialog.put s : Dialog Q R S E Unit) :=
  fun _ _ => ⟨inside, [], (List.append_nil _).symm, by simp⟩

theorem ask (e : E) (q : Q) (allowed : ∀ r, P (q, r)) :
    Emits I P (Dialog.ask e q : Dialog Q R S E R) := by
  intro w inside
  simp only [Dialog.ask]
  split
  · exact ⟨inside, [], (List.append_nil _).symm, by simp⟩
  · rename_i r rest answers
    exact ⟨inside, [(q, r)], rfl, by simpa using allowed r⟩

theorem get_bind {f : S → Dialog Q R S E β} (next : ∀ s, I s → Emits I P (f s)) :
    Emits I P (Dialog.get >>= f) := fun w inside => next w.state inside w inside

theorem bind {f : α → Dialog Q R S E β} (first : Emits I P m) (next : ∀ a, Emits I P (f a)) :
    Emits I P (m >>= f) := by
  intro w inside
  obtain ⟨kept, new, asked, all⟩ := first w inside
  simp only [Bind.bind]
  split
  · rename_i a after ran
    rw [ran] at kept asked
    obtain ⟨kept', more, asked', all'⟩ := next a after kept
    refine ⟨kept', new ++ more, by rw [asked', asked, List.append_assoc], ?_⟩
    intro e member
    rcases List.mem_append.mp member with earlier | later
    · exact all e earlier
    · exact all' e later
  · rename_i e after ran
    rw [ran] at kept asked
    exact ⟨kept, new, asked, all⟩

/-- A program that starts with a question shows it first. -/
theorem ask_first {f : R → Dialog Q R S E β} (next : ∀ r, Emits I P (f r))
    (answers : w.answers = r :: rest) (inside : I w.state) :
    ∃ new, ((Dialog.ask e q >>= f) w).2.asked = w.asked ++ (q, r) :: new ∧ ∀ e ∈ new, P e := by
  have asked := ask_returns (e := e) (q := q) |>.mpr ⟨rest, answers, rfl⟩
  rw [bind_ok f asked]
  obtain ⟨-, new, same, all⟩ :=
    next r { w with answers := rest, asked := w.asked ++ [(q, r)] } inside
  exact ⟨new, by rw [same, List.append_assoc]; rfl, all⟩

/-- A program that breaks `P` behind a first part that does not has got past that part. -/
theorem passes {f : α → Dialog Q R S E β} (first : Emits (fun _ => True) P m)
    (clean : ∀ e ∈ w.asked, P e) (broken : ∃ e ∈ ((m >>= f) w).2.asked, ¬P e) :
    ∃ a w', m w = (.ok a, w') ∧ (∀ e ∈ w'.asked, P e) ∧ ∃ e ∈ (f a w').2.asked, ¬P e := by
  obtain ⟨-, new, asked, all⟩ := first w trivial
  have kept : ∀ e ∈ (m w).2.asked, P e := by
    intro e member
    rw [asked] at member
    rcases List.mem_append.mp member with earlier | later
    · exact clean e earlier
    · exact all e later
  rcases ran : m w with ⟨e | a, after⟩
  · rw [ran] at kept
    rw [bind_error f ran] at broken
    obtain ⟨e, member, breaks⟩ := broken
    exact absurd (kept e member) breaks
  · rw [ran] at kept
    rw [bind_ok f ran] at broken
    exact ⟨a, after, rfl, kept, broken⟩

end Emits

/-- From this world the program asks only questions, with answers, that satisfy `P`. -/
def Asks (P : Q × R → Prop) (m : Dialog Q R S E α) (w : World Q R S) : Prop :=
  ∃ new, (m w).2.asked = w.asked ++ new ∧ ∀ e ∈ new, P e

theorem Emits.asks {P : Q × R → Prop} {m : Dialog Q R S E α} (emits : Emits I P m)
    (inside : I w.state) : Asks P m w := (emits w inside).2

namespace Asks
variable {P : Q × R → Prop} {m : Dialog Q R S E α} {w : World Q R S}

theorem ask_bind {f : R → Dialog Q R S E β} (allowed : ∀ r, P (q, r))
    (next : ∀ r v, v.state = w.state → Asks P (f r) v) : Asks P (Dialog.ask e q >>= f) w := by
  obtain ⟨state, answers, asked⟩ := w
  cases answers with
  | nil => exact ⟨[], (List.append_nil _).symm, by simp⟩
  | cons r rest =>
    obtain ⟨new, same, all⟩ := next r ⟨state, rest, asked ++ [(q, r)]⟩ rfl
    refine ⟨(q, r) :: new, ?_, List.forall_mem_cons.mpr ⟨allowed r, all⟩⟩
    exact same.trans (List.append_assoc _ _ _)

/-- After a part that returned without a question. -/
theorem after {f : α → Dialog Q R S E β} (ran : m w = (.ok a, w')) (quiet : w'.asked = w.asked)
    (next : Asks P (f a) w') : Asks P (m >>= f) w := by
  unfold Asks at next ⊢
  rwa [bind_ok f ran, ← quiet]

end Asks

/-- Whenever the program returns, what it asked satisfies `C`. -/
def Ends (C : List (Q × R) → Prop) (m : Dialog Q R S E α) : Prop :=
  ∀ w a w', m w = (.ok a, w') → ∃ new, w'.asked = w.asked ++ new ∧ C new

namespace Ends
variable {C : List (Q × R) → Prop} {P : Q × R → Prop} {m : Dialog Q R S E α}

theorem stop (e : E) : Ends C (Dialog.stop e : Dialog Q R S E α) := nofun

theorem of_emits (emits : Emits (fun _ => True) P m) (all : ∀ new, (∀ e ∈ new, P e) → C new) :
    Ends C m := by
  intro w a w' ran
  obtain ⟨-, new, asked, each⟩ := emits w trivial
  rw [ran] at asked
  exact ⟨new, asked, all new each⟩

theorem ask_bind {f : R → Dialog Q R S E β} (next : ∀ r, Ends (fun new => C ((q, r) :: new)) (f r)) :
    Ends C (Dialog.ask e q >>= f) := by
  intro w b w'' ran
  obtain ⟨r, w', asked, later⟩ := bind_returns.mp ran
  obtain ⟨rest, -, rfl⟩ := ask_returns.mp asked
  obtain ⟨new, same, ends⟩ := next r _ b w'' later
  exact ⟨(q, r) :: new, by rw [same, List.append_assoc]; rfl, ends⟩

/-- A first part that asks only questions in `P`. -/
theorem after {f : α → Dialog Q R S E β} (first : Emits (fun _ => True) P m)
    (next : ∀ a, Ends C (f a)) (extend : ∀ new more, (∀ e ∈ new, P e) → C more → C (new ++ more)) :
    Ends C (m >>= f) := by
  intro w b w'' ran
  obtain ⟨a, w', first', later⟩ := bind_returns.mp ran
  obtain ⟨-, new, asked, each⟩ := first w trivial
  rw [first'] at asked
  obtain ⟨more, same, ends⟩ := next a w' b w'' later
  exact ⟨new ++ more, by rw [same, asked, List.append_assoc], extend new more each ends⟩

/-- A last part that asks anything. -/
theorem before {f : α → Dialog Q R S E β} (first : Ends C m)
    (next : ∀ a, Emits (fun _ => True) (fun _ => True) (f a))
    (extend : ∀ new more, C new → C (new ++ more)) : Ends C (m >>= f) := by
  intro w b w'' ran
  obtain ⟨a, w', first', later⟩ := bind_returns.mp ran
  obtain ⟨new, same, ends⟩ := first w a w' first'
  obtain ⟨-, more, asked, -⟩ := next a w' trivial
  rw [later] at asked
  exact ⟨new ++ more, by rw [asked, same, List.append_assoc], extend new more ends⟩

end Ends
end Dialog
end MinLinux
