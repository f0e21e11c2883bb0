import MinLinux.Transition

/-! The event loop as a circulation of request tokens. Three kinds of request move
from the submission queue through the kernel to the completion queue; handling one
puts its successors back. This level says what the loop is for: one signal read
and one console read are always under way, and nothing else accumulates. -/
namespace MinLinux.Init

inductive Kind where
  | prompt
  | console
  | signal
deriving DecidableEq

inductive Phase where
  | starting
  | waiting
  | entering
  | polling
  | handling
  | commanding
  | prompting
  | advancing
  | exited
deriving DecidableEq

/-- `done` is the queue of completions, its head the one being handled. -/
structure Tokens where
  phase : Phase
  queued : List Kind
  inflight : List Kind
  done : List Kind

namespace Tokens

inductive Move where
  | init
  | enter
  | consume
  | enterReturn
  | result
  | command
  | noCommand
  | commandReturn
  | prompt
  | relisten
  | written
  | advance
  | complete (index : Nat)
  | exit

def step (t : Tokens) : Move → Option Tokens
  | .init =>
      if t.phase = .starting then
        some { t with phase := .waiting, queued := t.queued ++ [.prompt, .console, .signal] }
      else none
  | .enter => if t.phase = .waiting then some { t with phase := .entering } else none
  | .consume =>
      match t.phase, t.queued with
      | .entering, k :: rest => some { t with queued := rest, inflight := t.inflight ++ [k] }
      | _, _ => none
  | .enterReturn => if t.phase = .entering then some { t with phase := .polling } else none
  | .result =>
      if t.phase = .polling then
        some { t with phase := if t.done = [] then .waiting else .handling }
      else none
  | .command =>
      if t.phase = .handling ∧ t.done.head? = some .console then
        some { t with phase := .commanding }
      else none
  | .noCommand =>
      if t.phase = .handling ∧ t.done.head? = some .console then
        some { t with phase := .prompting }
      else none
  | .commandReturn =>
      if t.phase = .commanding then some { t with phase := .prompting } else none
  | .prompt =>
      if t.phase = .prompting then
        some { t with phase := .advancing, queued := t.queued ++ [.prompt, .console] }
      else none
  | .relisten =>
      if t.phase = .handling ∧ t.done.head? = some .signal then
        some { t with phase := .advancing, queued := t.queued ++ [.signal] }
      else none
  | .written =>
      if t.phase = .handling ∧ t.done.head? = some .prompt then
        some { t with phase := .advancing }
      else none
  | .advance =>
      if t.phase = .advancing then some { t with phase := .waiting, done := t.done.tail } else none
  | .complete i =>
      match t.inflight[i]? with
      | some k =>
          if (t.inflight.take i).getLast? = some .prompt then none
          else some { t with inflight := t.inflight.eraseIdx i, done := t.done ++ [k] }
      | none => none
  | .exit => some { t with phase := .exited }

def start : Tokens := ⟨.starting, [], [], []⟩

/-- Requests in the order in which they can come to be handled. -/
def pipeline (t : Tokens) : List Kind := t.done ++ t.inflight ++ t.queued

/-- One signal read, one console read, at most one prompt, and the prompt never
behind the console read. -/
structure Balanced (w : List Kind) : Prop where
  signal : w.count .signal = 1
  console : w.count .console = 1
  prompt : w.count .prompt ≤ 1
  ordered : w.Pairwise fun a b => a = .console → b ≠ .prompt

/-- Every prompt is followed at once by its console read. -/
def Linked : List Kind → Prop
  | [] => True
  | k :: rest => (k = .prompt → rest.head? = some .console) ∧ Linked rest

theorem count_length (w : List Kind) :
    w.length = w.count .signal + w.count .console + w.count .prompt := by
  induction w with
  | nil => rfl
  | cons k rest ih =>
    cases k <;> simp only [List.length_cons, List.count_cons_self, ih] <;>
      simp only [List.count_cons, beq_iff_eq, reduceCtorEq, if_false] <;> omega

namespace Balanced
variable {w : List Kind}

theorem length_le (balanced : Balanced w) : w.length ≤ 3 := by
  have := count_length w
  have := balanced.signal
  have := balanced.console
  have := balanced.prompt
  omega

/-- A console read at the front leaves only the signal read behind it. -/
theorem after_console (balanced : Balanced (.console :: w)) : w = [.signal] := by
  have signal := balanced.signal
  have console := balanced.console
  have absent : Kind.prompt ∉ w := fun member =>
    (List.pairwise_cons.mp balanced.ordered).1 _ member rfl rfl
  have prompt := List.count_eq_zero_of_not_mem absent
  simp only [List.count_cons_self, List.count_cons, beq_iff_eq, reduceCtorEq, if_false] at signal console
  have total := count_length w
  have single : w.length = 1 := by omega
  obtain ⟨k, rfl⟩ := List.length_eq_one_iff.mp single
  cases k <;> simp_all

/-- A completed console read is replaced by a prompt and its console read. -/
theorem renew_console (balanced : Balanced (.console :: w)) :
    Balanced (w ++ [.prompt, .console]) := by
  rw [balanced.after_console]
  exact ⟨rfl, rfl, by decide, by decide⟩

theorem renew_signal (balanced : Balanced (.signal :: w)) : Balanced (w ++ [.signal]) := by
  have signal := balanced.signal
  have console := balanced.console
  have prompt := balanced.prompt
  simp only [List.count_cons_self, List.count_cons, beq_iff_eq, reduceCtorEq, if_false] at signal console prompt
  constructor
  · simp only [List.count_append, List.count_singleton_self]
    omega
  · simpa [List.count_append, List.count_singleton] using console
  · simpa [List.count_append, List.count_singleton] using prompt
  · rw [List.pairwise_append]
    refine ⟨(List.pairwise_cons.mp balanced.ordered).2, List.pairwise_singleton _ _, ?_⟩
    intro a _ b member _
    rw [List.mem_singleton.mp member]
    decide

theorem drop_prompt (balanced : Balanced (.prompt :: w)) : Balanced w := by
  have signal := balanced.signal
  have console := balanced.console
  have prompt := balanced.prompt
  simp only [List.count_cons_self, List.count_cons, beq_iff_eq, reduceCtorEq, if_false] at signal console prompt
  exact ⟨signal, console, by omega, (List.pairwise_cons.mp balanced.ordered).2⟩

/-- Moving an operation forward past those in flight before it. Only a console read
has to keep a prompt in front. -/
theorem forward (balanced : Balanced (d ++ (a ++ k :: b) ++ q))
    (free : k = .console → Kind.prompt ∉ a) : Balanced (d ++ [k] ++ (a ++ b) ++ q) := by
  have perm : (d ++ [k] ++ (a ++ b) ++ q).Perm (d ++ (a ++ k :: b) ++ q) := by
    simp only [List.append_assoc, List.cons_append, List.nil_append]
    exact (List.perm_middle.symm).append_left d
  refine ⟨?_, ?_, ?_, ?_⟩
  · rw [perm.count_eq]
    exact balanced.signal
  · rw [perm.count_eq]
    exact balanced.console
  · rw [perm.count_eq]
    exact balanced.prompt
  · have ordered := balanced.ordered
    simp only [List.append_assoc, List.cons_append, List.nil_append, List.pairwise_append,
      List.pairwise_cons, List.mem_append, List.mem_cons] at ordered ⊢
    grind

end Balanced

namespace Linked

theorem append (first : Linked l) (second : Linked m) : Linked (l ++ m) := by
  induction l with
  | nil => exact second
  | cons k rest ih =>
    obtain ⟨follows, first⟩ := first
    refine ⟨fun prompt => ?_, ih first⟩
    cases rest with
    | nil => exact absurd (follows prompt) (by simp)
    | cons => exact follows prompt

/-- In a linked list a prompt in front of `l` with no console read there is last. -/
theorem last_prompt (linked : Linked (a ++ l)) (member : Kind.prompt ∈ a)
    (absent : Kind.console ∉ a) : a.getLast? = some .prompt := by
  induction a with
  | nil => contradiction
  | cons k rest ih =>
    obtain ⟨follows, linked⟩ := linked
    cases rest with
    | nil =>
      rw [List.mem_singleton.mp member]
      rfl
    | cons next tail =>
      rcases List.mem_cons.mp member with rfl | later
      · have console : next = .console := Option.some.inj (follows rfl)
        rw [console] at absent
        simp at absent
      · rw [List.getLast?_cons_cons]
        exact ih linked later (fun h => absent (List.mem_cons_of_mem _ h))

/-- An operation that is not held back can leave without breaking a link. -/
theorem erase (linked : Linked (a ++ k :: l)) (free : a.getLast? ≠ some .prompt) :
    Linked (a ++ l) := by
  induction a with
  | nil => exact linked.2
  | cons first rest ih =>
    obtain ⟨follows, linked⟩ := linked
    cases rest with
    | nil =>
      refine ⟨fun prompt => absurd (congrArg some prompt) free, linked.2⟩
    | cons next tail =>
      rw [List.getLast?_cons_cons] at free
      exact ⟨follows, ih linked free⟩

end Linked

/-- The link is what keeps a console read behind its prompt: with one console read
under way, a prompt before it in flight is the operation just before it. -/
theorem Balanced.complete (balanced : Balanced (d ++ (a ++ k :: b) ++ q))
    (linked : Linked (a ++ k :: b ++ q)) (free : a.getLast? ≠ some .prompt) :
    Balanced (d ++ [k] ++ (a ++ b) ++ q) := by
  apply balanced.forward
  rintro rfl member
  have single := balanced.console
  simp only [List.count_append, List.count_cons_self] at single
  have absent : Kind.console ∉ a := List.count_eq_zero.mp (by omega)
  rw [List.append_assoc] at linked
  exact free (linked.last_prompt member absent)

/-- What each phase knows of the requests under way. -/
def Circulates (t : Tokens) : Prop :=
  match t.phase with
  | .starting => t.pipeline = []
  | .waiting | .entering | .polling => Balanced t.pipeline
  | .handling => Balanced t.pipeline ∧ t.done ≠ []
  | .commanding | .prompting => Balanced t.pipeline ∧ t.done.head? = some .console
  | .advancing => Balanced t.pipeline.tail ∧ t.done ≠ []
  | .exited => True

structure Inv (t : Tokens) : Prop where
  linked : Linked (t.inflight ++ t.queued)
  outstanding : (t.done ++ t.inflight).length ≤ 3
  queued : t.queued.length ≤ 3
  circulates : Circulates t

theorem start_inv : Inv start := ⟨trivial, by decide, by decide, rfl⟩

theorem init_inv (inv : Inv t) (stepped : step t .init = some t') : Inv t' := by
  obtain ⟨phase, queued, inflight, done⟩ := t
  obtain ⟨linked, outstanding, short, circulates⟩ := inv
  simp only [step] at stepped
  split at stepped
  · rename_i starting
    cases starting
    cases stepped
    simp only [Circulates, pipeline, List.append_eq_nil_iff] at circulates
    obtain ⟨⟨rfl, rfl⟩, rfl⟩ := circulates
    refine ⟨?_, by decide, by decide, ⟨rfl, rfl, by decide, by decide⟩⟩
    exact ⟨fun _ => rfl, fun h => absurd h (by decide), fun h => absurd h (by decide), trivial⟩
  · contradiction

theorem consume_inv (inv : Inv t) (stepped : step t .consume = some t') : Inv t' := by
  obtain ⟨phase, queued, inflight, done⟩ := t
  obtain ⟨linked, outstanding, short, circulates⟩ := inv
  simp only [step] at stepped
  split at stepped
  · cases stepped
    rename_i k rest
    simp only [Circulates, pipeline] at circulates
    have whole := circulates.length_le
    simp only [List.length_append, List.length_cons] at whole outstanding short
    refine ⟨?_, ?_, ?_, ?_⟩
    · simpa using linked
    · simp only [List.length_append, List.length_singleton]
      omega
    · dsimp only
      omega
    · simpa only [Circulates, pipeline, List.append_assoc, List.singleton_append] using circulates
  · contradiction

/-- The console read is never completed past a prompt it is linked to. -/
theorem complete_inv (inv : Inv t) (stepped : step t (.complete i) = some t') : Inv t' := by
  obtain ⟨phase, queued, inflight, done⟩ := t
  obtain ⟨linked, outstanding, short, circulates⟩ := inv
  simp only [step] at stepped
  split at stepped
  · rename_i k entry
    split at stepped
    · contradiction
    · rename_i free
      cases stepped
      obtain ⟨within, same⟩ := List.getElem?_eq_some_iff.mp entry
      have parts : inflight = inflight.take i ++ k :: inflight.drop (i + 1) := by
        rw [← same, ← List.drop_eq_getElem_cons within, List.take_append_drop]
      rw [List.eraseIdx_eq_take_drop_succ]
      generalize inflight.take i = a at *
      generalize inflight.drop (i + 1) = b at *
      subst parts
      refine ⟨?_, ?_, short, ?_⟩
      · rw [List.append_assoc, List.cons_append] at linked
        rw [List.append_assoc]
        exact linked.erase free
      · simp only [List.length_append, List.length_cons, List.length_nil] at outstanding ⊢
        omega
      · cases phase with
        | starting =>
          simp only [Circulates, pipeline, List.append_eq_nil_iff, reduceCtorEq, and_false,
            false_and] at circulates
        | waiting | entering | polling => exact circulates.complete linked free
        | handling => exact ⟨circulates.1.complete linked free, by simp⟩
        | commanding | prompting =>
          refine ⟨circulates.1.complete linked free, ?_⟩
          have head : done.head? = some .console := circulates.2
          rw [List.head?_append, head]
          rfl
        | advancing =>
          obtain ⟨balanced, occupied⟩ := circulates
          obtain ⟨first, rest, rfl⟩ := List.exists_cons_of_ne_nil occupied
          exact ⟨balanced.complete linked free, by simp⟩
        | exited => trivial
  · contradiction

/-- The steps of the program that submit a request replace the token they handle. -/
theorem prompt_inv (inv : Inv t) (stepped : step t .prompt = some t') : Inv t' := by
  obtain ⟨phase, queued, inflight, done⟩ := t
  obtain ⟨linked, outstanding, short, circulates⟩ := inv
  simp only [step] at stepped
  split at stepped
  · rename_i prompting
    cases prompting
    cases stepped
    obtain ⟨balanced, head⟩ := circulates
    obtain ⟨rest, rfl⟩ := List.head?_eq_some_iff.mp head
    have renewed : Balanced (rest ++ inflight ++ queued ++ [.prompt, .console]) :=
      balanced.renew_console
    refine ⟨?_, outstanding, ?_, ?_, by simp⟩
    · rw [← List.append_assoc]
      exact linked.append ⟨fun _ => rfl, fun h => absurd h (by decide), trivial⟩
    · have total := renewed.length_le
      simp only [List.length_append] at total ⊢
      omega
    · simpa only [pipeline, List.cons_append, List.tail_cons, List.append_assoc] using renewed
  · contradiction

theorem relisten_inv (inv : Inv t) (stepped : step t .relisten = some t') : Inv t' := by
  obtain ⟨phase, queued, inflight, done⟩ := t
  obtain ⟨linked, outstanding, short, circulates⟩ := inv
  simp only [step] at stepped
  split at stepped
  · rename_i handling
    obtain ⟨rfl, head⟩ := handling
    cases stepped
    obtain ⟨rest, rfl⟩ := List.head?_eq_some_iff.mp head
    have renewed : Balanced (rest ++ inflight ++ queued ++ [.signal]) :=
      circulates.1.renew_signal
    refine ⟨?_, outstanding, ?_, ?_, by simp⟩
    · rw [← List.append_assoc]
      exact linked.append ⟨fun h => absurd h (by decide), trivial⟩
    · have total := renewed.length_le
      simp only [List.length_append] at total ⊢
      omega
    · simpa only [pipeline, List.cons_append, List.tail_cons, List.append_assoc] using renewed
  · contradiction

theorem written_inv (inv : Inv t) (stepped : step t .written = some t') : Inv t' := by
  obtain ⟨phase, queued, inflight, done⟩ := t
  obtain ⟨linked, outstanding, short, circulates⟩ := inv
  simp only [step] at stepped
  split at stepped
  · rename_i handling
    obtain ⟨rfl, head⟩ := handling
    cases stepped
    obtain ⟨rest, rfl⟩ := List.head?_eq_some_iff.mp head
    exact ⟨linked, outstanding, short, Balanced.drop_prompt circulates.1, by simp⟩
  · contradiction

theorem advance_inv (inv : Inv t) (stepped : step t .advance = some t') : Inv t' := by
  obtain ⟨phase, queued, inflight, done⟩ := t
  obtain ⟨linked, outstanding, short, circulates⟩ := inv
  simp only [step] at stepped
  split at stepped
  · rename_i advancing
    cases advancing
    cases stepped
    obtain ⟨balanced, occupied⟩ := circulates
    obtain ⟨first, rest, rfl⟩ := List.exists_cons_of_ne_nil occupied
    simp only [List.length_append, List.length_cons] at outstanding
    refine ⟨linked, ?_, short, balanced⟩
    simp only [List.tail_cons, List.length_append]
    omega
  · contradiction

theorem phase_inv (inv : Inv t) (circulates : Circulates { t with phase := p }) :
    Inv { t with phase := p } :=
  ⟨inv.linked, inv.outstanding, inv.queued, circulates⟩

theorem step_inv (inv : Inv t) (stepped : step t m = some t') : Inv t' := by
  obtain ⟨phase, queued, inflight, done⟩ := t
  have circulates := inv.circulates
  cases m with
  | init => exact init_inv inv stepped
  | consume => exact consume_inv inv stepped
  | complete i => exact complete_inv inv stepped
  | prompt => exact prompt_inv inv stepped
  | relisten => exact relisten_inv inv stepped
  | written => exact written_inv inv stepped
  | advance => exact advance_inv inv stepped
  | exit =>
    cases stepped
    exact phase_inv inv trivial
  | enter | enterReturn =>
    simp only [step] at stepped
    split at stepped
    · rename_i phase
      cases phase
      cases stepped
      exact phase_inv inv circulates
    · contradiction
  | result =>
    simp only [step] at stepped
    split at stepped
    · rename_i phase
      cases phase
      cases stepped
      split
      · exact phase_inv inv circulates
      · exact phase_inv inv ⟨circulates, ‹_›⟩
    · contradiction
  | command | noCommand =>
    simp only [step] at stepped
    split at stepped
    · rename_i phase
      obtain ⟨rfl, head⟩ := phase
      cases stepped
      exact phase_inv inv ⟨circulates.1, head⟩
    · contradiction
  | commandReturn =>
    simp only [step] at stepped
    split at stepped
    · rename_i phase
      cases phase
      cases stepped
      exact phase_inv inv circulates
    · contradiction

end Tokens
end MinLinux.Init
