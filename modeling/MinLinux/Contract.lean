import MinLinux.Dialog
import MinLinux.Transition

/-! Contracts of dialogs. A ghost machine follows the conversation and refuses the
answers its environment never gives; a contract relates the ghost states at both ends
of a program, whether the program returns or stops. -/
namespace MinLinux.Dialog
open Transition
variable {Q R S E G α β : Type}

/-- Where the program returns, or stops, after a conversation that ends in `g`. -/
def Outcome (post : α → G → Prop) (stops : E → G → Prop) (g : G) : Except E α → Prop
  | .ok a => post a g
  | .error e => stops e g

/-- From ghost states in `pre` every conversation the ghost machine can follow ends in
`post` if the program returns and in `stops` if it does not. -/
def Triple (follow : G → Q × R → Option G) (pre : G → Prop) (m : Dialog Q R S E α)
    (post : α → G → Prop) (stops : E → G → Prop) : Prop :=
  ∀ w, ∃ new, (m w).2.asked = w.asked ++ new ∧
    ∀ g g', pre g → run follow g new = some g' → Outcome post stops g' (m w).1

namespace Triple
variable {follow : G → Q × R → Option G} {pre : G → Prop} {post : α → G → Prop}
  {stops : E → G → Prop} {m : Dialog Q R S E α}

theorem quiet (same : ∀ w, (m w).2.asked = w.asked)
    (ends : ∀ w g, pre g → Outcome post stops g (m w).1) : Triple follow pre m post stops := by
  intro w
  refine ⟨[], by rw [same, List.append_nil], ?_⟩
  rintro g g' before ⟨⟩
  exact ends w g before

theorem pure (returns : ∀ g, pre g → post a g) :
    Triple follow pre (Pure.pure a : Dialog Q R S E α) post stops :=
  quiet (fun _ => rfl) fun _ => returns

theorem stop (ends : ∀ g, pre g → stops e g) :
    Triple follow pre (Dialog.stop e : Dialog Q R S E α) post stops :=
  quiet (fun _ => rfl) fun _ => ends

/-- The environment answers as the ghost machine lets it. -/
theorem ask {post : R → G → Prop} (answered : ∀ g r g', pre g → follow g (q, r) = some g' → post r g')
    (starves : ∀ g, pre g → stops e g) :
    Triple follow pre (Dialog.ask e q : Dialog Q R S E R) post stops := by
  rintro ⟨state, answers, asked⟩
  cases answers with
  | nil =>
    refine ⟨[], (List.append_nil _).symm, ?_⟩
    rintro g g' before ⟨⟩
    exact starves g before
  | cons r rest =>
    refine ⟨[(q, r)], rfl, ?_⟩
    intro g g' before followed
    obtain ⟨next, first, last⟩ := run_cons_some.mp followed
    cases last
    exact answered g r g' before first

theorem bind {f : α → Dialog Q R S E β} {M : α → G → Prop} {post : β → G → Prop}
    (first : Triple follow pre m M stops) (next : ∀ a, Triple follow (M a) (f a) post stops) :
    Triple follow pre (m >>= f) post stops := by
  intro w
  obtain ⟨new, asked, ends⟩ := first w
  rcases ran : m w with ⟨e | a, after⟩
  · rw [ran] at asked ends
    rw [bind_error f ran]
    exact ⟨new, asked, ends⟩
  · rw [ran] at asked ends
    rw [bind_ok f ran]
    obtain ⟨more, asked', ends'⟩ := next a after
    refine ⟨new ++ more, by rw [asked', asked, List.append_assoc], ?_⟩
    intro g g' before followed
    obtain ⟨middle, earlier, later⟩ := run_append.mp followed
    exact ends' middle g' (ends g middle before earlier) later

theorem get_bind {f : S → Dialog Q R S E β} {post : β → G → Prop}
    (next : ∀ s, Triple follow pre (f s) post stops) :
    Triple follow pre (Dialog.get >>= f) post stops := fun w => next w.state w

theorem weaken {post' : α → G → Prop} (contract : Triple follow pre m post' stops)
    (implies : ∀ a g, post' a g → post a g) : Triple follow pre m post stops := by
  intro w
  obtain ⟨new, asked, ends⟩ := contract w
  refine ⟨new, asked, fun g g' before followed => ?_⟩
  have reached := ends g g' before followed
  revert reached
  cases (m w).1 with
  | ok a => exact implies a g'
  | error e => exact id

theorem strengthen {pre' : G → Prop} (contract : Triple follow pre' m post stops)
    (implies : ∀ g, pre g → pre' g) : Triple follow pre m post stops := by
  intro w
  obtain ⟨new, asked, ends⟩ := contract w
  exact ⟨new, asked, fun g g' before => ends g g' (implies g before)⟩

/-- A program that asks only questions after which `pre` still holds. -/
theorem frame {P : Q × R → Prop} (emits : Emits (fun _ => True) P m)
    (keeps : ∀ g event g', P event → pre g → follow g event = some g' → pre g')
    (ends : ∀ e g, pre g → stops e g) : Triple follow pre m (fun _ => pre) stops := by
  intro w
  obtain ⟨-, new, asked, each⟩ := emits w trivial
  refine ⟨new, asked, fun g g' before followed => ?_⟩
  have kept : pre g' := by
    clear asked
    induction new generalizing g with
    | nil =>
      cases followed
      exact before
    | cons event rest ih =>
      obtain ⟨allowed, others⟩ := List.forall_mem_cons.mp each
      obtain ⟨next, first, last⟩ := run_cons_some.mp followed
      exact ih others next (keeps g event next allowed before first) last
  cases (m w).1 with
  | ok a => exact kept
  | error e => exact ends e g' kept

/-- A contract of a program that starts its conversation. -/
theorem ends (contract : Triple follow pre m post stops) {w : World Q R S} (fresh : w.asked = [])
    (before : pre g) (followed : run follow g (m w).2.asked = some g') :
    Outcome post stops g' (m w).1 := by
  obtain ⟨new, asked, ends⟩ := contract w
  rw [fresh, List.nil_append] at asked
  rw [asked] at followed
  exact ends g g' before followed

end Triple
end MinLinux.Dialog
