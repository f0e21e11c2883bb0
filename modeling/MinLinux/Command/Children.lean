import Mathlib.Data.Finset.Card
import MinLinux.Command.Contracts
import MinLinux.Command.Descriptors

/-! The children of init over sequences of commands. A command that forks waits for the
child it has made before it returns, so no child is ever left to be reaped. -/
namespace MinLinux.Command.Children
open Dialog Descriptors

/-- The children of a process that have not been waited for, and the most there ever
were. `isChild` is a process that a command has made. -/
structure Family where
  children : Finset Int
  most : Nat
  isChild : Bool
deriving DecidableEq

/-- A child begins without children. The kernel gives a new child a number no other child
has, and waits only for children there are. -/
def follow (f : Family) : Event → Option Family
  | (.clone3 _ _, r) =>
      if r.res < 0 then some f
      else if r.res = 0 then some ⟨∅, 0, true⟩
      else if r.res ∈ f.children then none
      else some ⟨insert r.res f.children, max f.most (f.children.card + 1), f.isChild⟩
  | (.waitid pid, r) =>
      if r.res < 0 then some f
      else if pid ∈ f.children then some { f with children := f.children.erase pid }
      else none
  | _ => some f

/-- A command that returns in a child has no next state: it is another process. -/
def step (env : Env) (f : Family) (call : Invocation) : Option Family :=
  match (call.run env).1 with
  | .ok () => (Transition.run follow f (call.run env).2.asked).filter fun after => !after.isChild
  | .error _ => none

def Childless (e : Event) : Prop := ∀ f, follow f e = some f

theorem childless_writes : Writes Childless := fun _ _ _ => rfl

theorem childless_plain : Plain Childless where
  writes := childless_writes
  reads _ _ _ := rfl
  opens _ _ _ _ := rfl
  opens2 _ _ _ _ := rfl
  lists _ _ _ := rfl
  times _ _ := rfl
  informs _ _ := rfl

section Contracts
variable {env : Env} {before : Family}

/-- A parent as it was before the command, but for one child it may have had since. -/
def Settled (before f : Family) : Prop :=
  f.isChild = true ∨ f.children = before.children ∧ f.isChild = before.isChild ∧
    f.most ≤ max before.most (before.children.card + 1)

def Waiting (before : Family) (pid : Int) (f : Family) : Prop :=
  pid ∉ before.children ∧ f.children = insert pid before.children ∧ f.isChild = before.isChild ∧
    f.most ≤ max before.most (before.children.card + 1)

/-- A parent with the children from before the command, one more at most, wherever the
command is. -/
def Within (before f : Family) : Prop :=
  f.isChild = true ∨ before.children ⊆ f.children ∧
    f.children.card ≤ before.children.card + 1 ∧ f.most ≤ max before.most (before.children.card + 1)

theorem Settled.refl (f : Family) : Settled f f := .inr ⟨rfl, rfl, Nat.le_max_left _ _⟩

theorem Settled.within (settled : Settled before f) : Within before f := by
  rcases settled with child | ⟨children, -, most⟩
  · exact .inl child
  · rw [Within, children]
    exact .inr ⟨subset_rfl, Nat.le_succ _, most⟩

theorem unchanged_within (same : f = before) : Within before f :=
  same ▸ (Settled.refl f).within

theorem Waiting.within (waiting : Waiting before pid f) : Within before f := by
  obtain ⟨-, children, -, most⟩ := waiting
  rw [Within, children]
  exact .inr ⟨Finset.subset_insert _ _, Finset.card_insert_le _ _, most⟩

theorem framed {pre : Family → Prop} {m : Proc α} (bounds : ∀ f, pre f → Within before f)
    (emits : Emits (fun _ => True) Childless m) :
    Triple follow pre m (fun _ => pre) (fun _ => Within before) := by
  refine .frame emits ?_ fun _ => bounds
  intro f event f' childless holds followed
  cases (childless f).symm.trans followed
  exact holds

/-- The wait that a parent returns from is the one for its child. A wait that fails ends
init, with the child still to be waited for. -/
theorem waits_triple (line : String) (pid : Int) :
    Triple follow (Waiting before pid) (syscheck env line (.waitid pid))
      (fun _ => Settled before) (fun _ => Within before) := by
  refine syscheck_triple (N := Within before) env line childless_writes ?_ (fun _ _ => id)
    (fun _ => Waiting.within) ?_ ?_
  · intro f event f' childless bound followed
    cases (childless f).symm.trans followed
    exact bound
  · rintro f r f' ⟨fresh, children, parent, most⟩ succeeds followed
    rw [follow, if_neg (by omega), Option.ite_none_right_eq_some] at followed
    obtain ⟨-, same⟩ := followed
    cases same
    refine .inr ⟨?_, parent, most⟩
    rw [children, Finset.erase_insert fresh]
  · intro f r f' waiting fails followed
    rw [follow, if_pos fails] at followed
    cases followed
    exact waiting.within

theorem busyboxParent_triple (pid : Int) :
    Triple follow (Waiting before pid) (busyboxParent env pid) (fun _ => Settled before)
      (fun _ => Within before) := by
  refine .bind (waits_triple _ pid) fun _ => framed (fun _ => Settled.within) ?_
  refine .bind (writeStr_emits childless_writes _) fun _ => ?_
  exact .bind (writeInt_emits childless_writes _) fun _ => writeStr_emits childless_writes _

theorem memrunParent_triple (pid : Int) :
    Triple follow (Waiting before pid) (memrunParent env pid) (fun _ => Settled before)
      (fun _ => Within before) := by
  have writes := childless_writes
  have waiting : ∀ f, Waiting before pid f → Within before f := fun _ => Waiting.within
  refine .bind (framed waiting (writeStr_emits writes _)) fun _ => ?_
  refine .bind (framed waiting (writeInt_emits writes _)) fun _ => ?_
  refine .bind (framed waiting (writeStr_emits writes _)) fun _ => ?_
  refine .bind (waits_triple _ pid) fun _ => framed (fun _ => Settled.within) ?_
  refine .bind (writeStr_emits writes _) fun _ => .bind (writeInt_emits writes _) fun _ => ?_
  refine .bind (writeStr_emits writes _) fun _ => ?_
  exact .bind (writeInt_emits writes _) fun _ => writeStr_emits writes _

/-- A child is never its parent again. -/
theorem child_triple {m : Proc Unit} (emits : Emits (fun _ => True) (fun _ => True) m) :
    Triple follow (fun f => f.isChild = true) m (fun _ => Settled before)
      (fun _ => Within before) := by
  refine (Triple.frame emits ?_ fun _ _ => .inl).weaken fun _ _ => .inl
  rintro f ⟨call, r⟩ f' - child followed
  cases call <;> simp only [follow] at followed
  case clone3 =>
    split at followed
    · cases followed
      exact child
    · split at followed
      · cases followed
        rfl
      · simp only [Option.ite_none_left_eq_some, Option.some.injEq] at followed
        obtain ⟨-, rfl⟩ := followed
        exact child
  case waitid =>
    split at followed
    · cases followed
      exact child
    · simp only [Option.ite_none_right_eq_some, Option.some.injEq] at followed
      obtain ⟨-, rfl⟩ := followed
      exact child
  all_goals
    cases followed
    exact child

theorem forks_triple {parent : Int → Proc Unit} {child error : Reply → Proc Unit}
    (parents : ∀ pid, Triple follow (Waiting before pid) (parent pid) (fun _ => Settled before)
      (fun _ => Within before))
    (children : ∀ tid, Emits (fun _ => True) (fun _ => True) (child tid))
    (errors : ∀ tid, Emits (fun _ => True) Childless (error tid)) :
    Triple follow (· = before) (do
      let tid ← syscall (.clone3 0 SIGCHLD)
      if 0 < tid.res then parent tid.res else if tid.res = 0 then child tid else error tid)
      (fun _ => Settled before) (fun _ => Within before) := by
  apply clone_triple fun _ => unchanged_within
  · intro tid positive
    refine (parents tid.res).strengthen ?_
    rintro f' ⟨f, rfl, followed⟩
    rw [follow, if_neg (by omega), if_neg (by omega), Option.ite_none_left_eq_some] at followed
    obtain ⟨fresh, same⟩ := followed
    cases same
    exact ⟨fresh, rfl, rfl, Nat.le_refl _⟩
  · intro tid zero
    refine (child_triple (children tid)).strengthen ?_
    rintro f' ⟨f, rfl, followed⟩
    rw [follow, if_neg (by omega), if_pos zero] at followed
    cases followed
    rfl
  · intro tid negative
    have contract : Triple follow (Settled before) (error tid) (fun _ => Settled before)
        (fun _ => Within before) := framed (fun _ => Settled.within) (errors tid)
    refine contract.strengthen ?_
    rintro f' ⟨f, rfl, followed⟩
    rw [follow, if_pos negative] at followed
    cases followed
    exact .refl _

theorem processCommand_triple (args : Nat) :
    Triple follow (· = before) (processCommand env args) (fun _ => Settled before)
      (fun _ => Within before) := by
  refine Command.processCommand_triple childless_plain ?_ (fun _ _ => unchanged_within) ?_ ?_ ?_ args
  · intro f event f' childless same followed
    cases (childless f).symm.trans followed
    exact same
  · rintro f rfl
    exact .refl f
  · intro path next
    exact forks_triple memrunParent_triple (fun _ => memrunChild_emits all_ordinary all_stores _ _ _)
      fun _ => writeErr_emits childless_writes _ _
  · intro command found
    exact forks_triple busyboxParent_triple
      (fun _ => busyboxChild_emits all_ordinary all_stores _ _ _)
      fun _ => writeErr_emits childless_writes _ _

end Contracts

/-- However a command ends, or wherever it stands if it has not ended. -/
theorem run_outcome (f : Family) (call : Invocation)
    (followed : Transition.run follow f (call.run env).2.asked = some f') :
    Outcome (fun _ => Settled f) (fun _ => Within f) f' (call.run env).1 := by
  have contract : Triple follow (· = f) (processCommand env 0) (fun _ => Settled f)
      (fun _ => Within f) := processCommand_triple 0
  exact contract.ends (w := ⟨call.line ++ 0 :: call.behind, call.answers, []⟩) rfl rfl followed

/-- A command that returns in the process it was given to has waited for its child. -/
theorem step_settles (stepped : step env f call = some f') (parent : f.isChild = false) :
    f'.children = f.children ∧ f'.isChild = false ∧ f'.most ≤ max f.most (f.children.card + 1) := by
  simp only [step] at stepped
  split at stepped
  · rename_i returned
    obtain ⟨followed, returns⟩ := Option.filter_eq_some_iff.mp stepped
    have settled := run_outcome f call followed
    rw [returned] at settled
    rcases settled with child | ⟨children, same, most⟩
    · rw [child] at returns
      cases returns
    · exact ⟨children, same.trans parent, most⟩
  · contradiction

theorem run_within (f : Family) (call : Invocation)
    (followed : Transition.run follow f (call.run env).2.asked = some g) : Within f g := by
  have outcome := run_outcome f call followed
  cases ended : (call.run env).1 with
  | ok _ =>
    rw [ended] at outcome
    exact Settled.within outcome
  | error _ =>
    rw [ended] at outcome
    exact outcome

/-- Whatever the kernel answers, after a run of commands that have returned in init its
children are those from before them, with one more at most during each. That bound goes
for a further command as well however it ends, or has not ended yet: init has the
children from before and at most one more, unless the conversation is that of a child. -/
theorem children_waited_for (ran : Transition.run (step env) f calls = some f')
    (parent : f.isChild = false) :
    (f'.children = f.children ∧ f'.isChild = false ∧
      f'.most ≤ max f.most (f.children.card + 1)) ∧
    ∀ (call : Invocation) (g : Family), Transition.run follow f' (call.run env).2.asked = some g →
      g.isChild = true ∨ f.children ⊆ g.children ∧ g.children.card ≤ f.children.card + 1 ∧
        g.most ≤ max f.most (f.children.card + 1) := by
  have settled : f'.children = f.children ∧ f'.isChild = false ∧
      f'.most ≤ max f.most (f.children.card + 1) := by
    refine Transition.run_invariant (P := fun after => after.children = f.children ∧
      after.isChild = false ∧ after.most ≤ max f.most (f.children.card + 1)) ?_ ?_ ran
    · rintro s call t ⟨children, parent, most⟩ stepped
      obtain ⟨children', parent', most'⟩ := step_settles stepped parent
      rw [children] at children' most'
      exact ⟨children', parent', by omega⟩
    · exact ⟨rfl, parent, Nat.le_max_left _ _⟩
  refine ⟨settled, ?_⟩
  intro call g followed
  obtain ⟨children, -, most⟩ := settled
  rcases run_within f' call followed with child | ⟨kept, card, most'⟩
  · exact .inl child
  · rw [children] at kept card most'
    exact .inr ⟨kept, card, by omega⟩

/-- A program of busybox, a file that is not there, and a program run from memory; then a
wait that fails and ends init. -/
theorem children_waited_for_four : ∃ (calls : List Invocation) (last : Invocation) (f g : Family),
    calls.length = 3 ∧ Transition.run (step ⟨[], [], []⟩) ⟨{40}, 1, false⟩ calls = some f ∧
    f.children = {40} ∧ f.most ≤ 2 ∧ (last.run ⟨[], [], []⟩).1 = .error (.exited 10) ∧
    Transition.run follow f (last.run ⟨[], [], []⟩).2.asked = some g ∧ 40 ∈ g.children ∧
    g.children.card ≤ 2 := by
  let w : Reply := ⟨1, [], []⟩
  let calls : List Invocation :=
    [⟨ascii "true", [], [⟨7, [], []⟩, ⟨0, [], [7, 0]⟩, w, w, w], by decide⟩,
      ⟨ascii "cat x", [], [⟨-2, [], []⟩, w, w, w, w], by decide⟩,
      ⟨ascii "memrun x", [], [⟨8, [], []⟩, w, w, w, ⟨0, [], [8, 0]⟩, w, w, w, w, w], by decide⟩]
  let last : Invocation := ⟨ascii "true", [], [⟨9, [], []⟩, ⟨-10, [], []⟩, w, w, w], by decide⟩
  have followed : ((Transition.run (step ⟨[], [], []⟩) ⟨{40}, 1, false⟩ calls).bind fun f =>
      (Transition.run follow f (last.run ⟨[], [], []⟩).2.asked).filter fun g =>
        !g.isChild).isSome = true := by
    decide +kernel
  obtain ⟨g, found⟩ := Option.isSome_iff_exists.mp followed
  obtain ⟨f, ran, left⟩ := Option.bind_eq_some_iff.mp found
  obtain ⟨stopped, parent⟩ := Option.filter_eq_some_iff.mp left
  obtain ⟨⟨children, -, most⟩, bound⟩ := children_waited_for ran rfl
  rcases bound last g stopped with child | ⟨kept, card, -⟩
  · rw [child] at parent
    cases parent
  · exact ⟨calls, last, f, g, rfl, ran, children, most, by decide +kernel, stopped,
      kept (Finset.mem_singleton_self 40), card⟩

end MinLinux.Command.Children
