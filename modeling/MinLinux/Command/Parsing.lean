import Mathlib.Data.List.Forall2
import MinLinux.Command.Builtins

/-! What the scans and the in-place NULs of init/command.c make of a line: each
argument becomes a string of its own, and no later write reaches an earlier one. -/
namespace MinLinux.Command
open Text

/-- The argument a string starts with, possibly empty, and what is left behind the
blank that ends it. -/
def firstArg (s : List UInt8) : List UInt8 := s.takeWhile fun c => !isBlank c
def restArgs (s : List UInt8) : List UInt8 := (s.dropWhile fun c => !isBlank c).tail

/-- What is left of a line behind its first token. -/
def restLine (s : List UInt8) : List UInt8 := restArgs (s.dropWhile isBlank)

/-- The tokens of a line. -/
def tokens (s : List UInt8) : List (List UInt8) := words isBlank s

theorem tokens_arg (starts : isBlank c = false) :
    tokens (c :: s) = firstArg (c :: s) :: tokens (restArgs (c :: s)) := words_takeWhile starts

section Scans
variable {s post : List UInt8} {p : Nat}

theorem findArgFrom_eq (clean : 0 ∉ s) (post : List UInt8) (p : Nat) :
    findArgFrom (s ++ 0 :: post) p =
      some (if s.dropWhile isBlank = [] then none else some (p + (s.takeWhile isBlank).length)) := by
  induction s generalizing p with
  | nil => rfl
  | cons c rest ih =>
    simp only [List.mem_cons, not_or] at clean
    rw [List.cons_append, findArgFrom]
    cases blank : isBlank c with
    | true =>
      rw [if_pos rfl, ih clean.2, List.dropWhile_cons_of_pos blank, List.takeWhile_cons_of_pos blank,
        List.length_cons, Nat.add_right_comm, Nat.add_assoc]
    | false =>
      rw [if_neg (by simp), if_neg (Ne.symm clean.1), List.dropWhile_cons_of_neg (by simp [blank]),
        List.takeWhile_cons_of_neg (by simp [blank])]
      rfl

theorem argEndFrom_eq (clean : 0 ∉ s) (post : List UInt8) (p : Nat) :
    argEndFrom (s ++ 0 :: post) p =
      some (p + (firstArg s).length, decide (s.dropWhile (fun c => !isBlank c) ≠ [])) := by
  induction s generalizing p with
  | nil => rfl
  | cons c rest ih =>
    simp only [List.mem_cons, not_or] at clean
    have nonzero : (c != 0) = true := by simpa using Ne.symm clean.1
    rw [List.cons_append, argEndFrom, nonzero, Bool.and_true, firstArg]
    cases blank : isBlank c with
    | true =>
      rw [if_neg (by simp), List.dropWhile_cons_of_neg (by simp [blank]),
        List.takeWhile_cons_of_neg (by simp [blank])]
      simp
    | false =>
      rw [Bool.not_false, if_pos rfl, ih clean.2, List.dropWhile_cons_of_pos (by simp [blank]),
        List.takeWhile_cons_of_pos (by simp [blank]), List.length_cons, firstArg,
        Nat.add_right_comm, Nat.add_assoc]

theorem streqFrom_eq (clean : 0 ∉ s) (cleanName : 0 ∉ name) (post : List UInt8) :
    streqFrom (s ++ 0 :: post) (name ++ [0]) = some (decide (s = name)) := by
  induction s generalizing name with
  | nil =>
    cases name with
    | nil => rfl
    | cons b bs =>
      simp only [List.mem_cons, not_or] at cleanName
      rw [List.nil_append, List.cons_append, streqFrom, if_pos cleanName.1]
      simp
  | cons a as ih =>
    simp only [List.mem_cons, not_or] at clean
    cases name with
    | nil =>
      rw [List.nil_append, List.cons_append, streqFrom, if_pos (Ne.symm clean.1)]
      simp
    | cons b bs =>
      simp only [List.mem_cons, not_or] at cleanName
      rw [List.cons_append, List.cons_append, streqFrom]
      by_cases same : a = b
      · rw [if_neg (not_not.mpr same), if_neg (Ne.symm clean.1), ih clean.2 cleanName.2]
        simp [same]
      · rw [if_pos same]
        simp [same]

end Scans

section Operations
variable {w : World} {s name : List UInt8} {p : Nat}

/-- `find_arg` finds nothing exactly when no token is left, and else the first one. -/
theorem findArg_spec (at_p : StringAt w.state p s) :
    (tokens s = [] ∧ findArg p w = (.ok none, w)) ∨
    ∃ q c rest, p ≤ q ∧ s.dropWhile isBlank = c :: rest ∧ StringAt w.state q (c :: rest) ∧
      isBlank c = false ∧ tokens s = tokens (c :: rest) ∧ findArg p w = (.ok (some q), w) := by
  obtain ⟨clean, post, same⟩ := stringAt_iff.mp at_p
  have scan : findArg p w = (.ok (if s.dropWhile isBlank = [] then none
      else some (p + (s.takeWhile isBlank).length)), w) := by
    simp only [findArg, Dialog.bind_ok _ (Dialog.get_apply w), same, findArgFrom_eq clean]
    rfl
  have kept : tokens s = tokens (s.dropWhile isBlank) := (words_dropWhile s).symm
  cases left : s.dropWhile isBlank with
  | nil =>
    rw [left] at scan kept
    exact .inl ⟨kept, scan⟩
  | cons c rest =>
    rw [left] at scan kept
    refine .inr ⟨p + (s.takeWhile isBlank).length, c, rest, Nat.le_add_right _ _, rfl, ?_, ?_, kept,
      scan⟩
    · apply StringAt.drop
      rwa [← left, List.takeWhile_append_dropWhile]
    · have first := List.head?_dropWhile_not isBlank s
      rw [left] at first
      simpa using first

/-- `terminate_arg` cuts the first argument off. Strings that end before it stay. -/
theorem terminateArg_spec (at_p : StringAt w.state p s) :
    ∃ q mem, terminateArg p w = (.ok q, { w with state := mem }) ∧
      StringAt mem p (firstArg s) ∧ StringAt mem q (restArgs s) ∧
      (p + (firstArg s).length < q ∨ restArgs s = []) ∧
      ∀ p₀ s₀, StringAt w.state p₀ s₀ → p₀ + s₀.length < p ∨ s = [] → StringAt mem p₀ s₀ := by
  obtain ⟨clean, post, same⟩ := stringAt_iff.mp at_p
  have whole : firstArg s ++ s.dropWhile (fun c => !isBlank c) = s :=
    List.takeWhile_append_dropWhile
  have scan := argEndFrom_eq clean post p
  rw [← same] at scan
  simp only [terminateArg, Dialog.bind_ok _ (Dialog.get_apply w), scan]
  cases left : s.dropWhile (fun c => !isBlank c) with
  | nil =>
    rw [left, List.append_nil] at whole
    refine ⟨p + (firstArg s).length, w.state, rfl, by rwa [whole], ?_, .inr ?_, fun _ _ at_ _ => at_⟩
    · rw [restArgs, left]
      exact StringAt.drop (by rwa [List.tail_nil, List.append_nil, whole])
    · rw [restArgs, left]
      rfl
  | cons b rest =>
    rw [left] at whole
    rw [← whole] at at_p
    obtain ⟨first, after⟩ := StringAt.cut at_p
    refine ⟨p + (firstArg s).length + 1, w.state.set (p + (firstArg s).length) 0, rfl, first, ?_,
      .inl (Nat.lt_succ_self _), ?_⟩
    · rw [restArgs, left]
      exact after
    · rintro p₀ s₀ at_ (earlier | empty)
      · exact StringAt.set_after at_ (by omega) 0
      · rw [empty] at left
        cases left

theorem streq_spec (at_p : StringAt w.state p s) (cleanName : 0 ∉ name) :
    streq p name w = (.ok (decide (s = name)), w) := by
  obtain ⟨clean, post, same⟩ := stringAt_iff.mp at_p
  simp only [streq, Dialog.bind_ok _ (Dialog.get_apply w), same, streqFrom_eq clean cleanName]
  rfl

theorem loadString_line (at_p : StringAt w.state p s) :
    loadString (.line p) w = (.ok s, w) := by
  simp only [loadString, Dialog.bind_ok _ (Dialog.get_apply w), stringOf]
  rw [show cstring (w.state.drop p) = some s from at_p]
  rfl

/-- The string a `char *` points to. -/
def Points (mem : List UInt8) : CharPtr → List UInt8 → Prop
  | .literal text, s => text = s
  | .line p, s => StringAt mem p s

theorem loadString_spec (points : Points w.state ptr s) : loadString ptr w = (.ok s, w) := by
  cases ptr with
  | literal text =>
    cases points
    rfl
  | line p => exact loadString_line points

end Operations

/-- What `fill_args` makes of the string it is given: its first argument, which is
empty when the string starts with a blank, and the tokens behind that. -/
def fields (s : List UInt8) : List (List UInt8) := firstArg s :: tokens (restArgs s)

def argsOf (pointers : List Nat) : List Arg := pointers.map fun p => .str (.line p)

section Fill
variable {w : World} {filled tail : List Arg} {base i left : Nat}

theorem fillLoop_none (base left i : Nat) (args : List Arg) (w : World) :
    fillLoop base left i args none w = (.ok (i, args), w) := by
  cases left <;> rfl

/-- The store of one pointer behind those already there. -/
theorem storeArg_next (filled_to : filled.length = i) (space : 0 < tail.length) (arg : Arg)
    (w : World) :
    storeArg (filled ++ tail) i arg w = (.ok (filled ++ arg :: tail.tail), w) := by
  obtain ⟨first, others, rfl⟩ := List.exists_cons_of_length_pos space
  rw [storeArg, if_pos (by simp [filled_to])]
  simp [← filled_to]

theorem fillLoop_spec (at_q : StringAt w.state q s) (filled_to : filled.length = base + i)
    (space : left ≤ tail.length) :
    ∃ mem pointers,
      fillLoop base left i (filled ++ tail) (some q) w =
        (.ok (i + pointers.length, filled ++ argsOf pointers ++ tail.drop pointers.length),
          { w with state := mem }) ∧
      List.Forall₂ (StringAt mem) pointers ((fields s).take left) ∧
      ∀ p₀ s₀, StringAt w.state p₀ s₀ → p₀ + s₀.length < q ∨ s = [] → StringAt mem p₀ s₀ := by
  induction left generalizing w q s i filled tail with
  | zero => exact ⟨w.state, [], by simp [fillLoop, argsOf], .nil, fun _ _ at_ _ => at_⟩
  | succ left ih =>
    obtain ⟨temp, mem, terminated, arg, rest, apart, kept⟩ := terminateArg_spec at_q
    have stored := storeArg_next filled_to (Nat.lt_of_lt_of_le (Nat.succ_pos left) space)
      (.str (.line q)) { w with state := mem }
    rw [fillLoop, Dialog.bind_ok _ terminated, Dialog.bind_ok _ stored]
    rcases findArg_spec (w := { w with state := mem }) rest with
      ⟨none, found⟩ | ⟨next, c, others, ahead, -, at_next, nonblank, same, found⟩
    · rw [Dialog.bind_ok _ found, fillLoop_none]
      refine ⟨mem, [q], ?_, ?_, kept⟩
      · simp [argsOf]
      · rw [fields, none, List.take_succ_cons, List.take_nil]
        exact .cons arg .nil
    · rw [Dialog.bind_ok _ found]
      have apart : q + (firstArg s).length < temp := by
        rcases apart with apart | empty
        · exact apart
        · rw [empty, tokens_arg nonblank] at same
          cases same
      have filled_next : (filled ++ [Arg.str (.line q)]).length = base + (i + 1) := by
        simp [filled_to, Nat.add_assoc]
      have space_next : left ≤ tail.tail.length := by
        rw [List.length_tail]
        omega
      obtain ⟨mem', pointers, ran, strings, kept'⟩ :=
        ih (w := { w with state := mem }) at_next filled_next space_next
      refine ⟨mem', q :: pointers, ?_, ?_, ?_⟩
      · rw [List.append_assoc] at ran
        apply ran.trans
        simp [argsOf, Nat.add_assoc, Nat.add_comm 1, List.drop_tail]
      · rw [fields, List.take_succ_cons, same, tokens_arg nonblank]
        exact .cons (kept' _ _ arg (.inl (by omega))) strings
      · rintro p₀ s₀ at_ (earlier | empty)
        · exact kept' _ _ (kept _ _ at_ (.inl earlier)) (.inl (by omega))
        · rw [empty] at same
          rw [show tokens (restArgs []) = [] from rfl, tokens_arg nonblank] at same
          cases same

/-- What is left of a line at the pointer `find_arg` or `terminate_arg` returned. -/
inductive Remaining (mem : List UInt8) : Option Nat → List (List UInt8) → Prop where
  | none : Remaining mem none []
  | some : StringAt mem q s → Remaining mem (some q) (fields s)

/-- What is handed to the loop ends up as strings of their own, as many as it takes. -/
theorem fillLoop_remaining (remaining : Remaining w.state next strings)
    (filled_to : filled.length = base) (space : maxargs ≤ tail.length) :
    ∃ mem pointers,
      fillLoop base maxargs 0 (filled ++ tail) next w =
        (.ok (pointers.length, filled ++ argsOf pointers ++ tail.drop pointers.length),
          { w with state := mem }) ∧
      List.Forall₂ (StringAt mem) pointers (strings.take maxargs) ∧
      ∀ p₀ s₀, StringAt w.state p₀ s₀ →
        (∀ q ∈ next, p₀ + s₀.length < q ∨ StringAt w.state q []) → StringAt mem p₀ s₀ := by
  cases remaining with
  | none => exact ⟨w.state, [], by simp [fillLoop_none, argsOf], by simp, fun _ _ at_ _ => at_⟩
  | some at_q =>
    obtain ⟨mem, pointers, ran, strings, kept⟩ := fillLoop_spec (i := 0) at_q filled_to space
    rw [Nat.zero_add] at ran
    refine ⟨mem, pointers, ran, strings, ?_⟩
    intro p₀ s₀ at_ before
    refine kept p₀ s₀ at_ ((before _ rfl).imp_right ?_)
    intro empty
    exact Option.some.inj (at_q.symm.trans empty)

/-- The loop stops below `MAX_ARGS`, so a NULL is always stored behind the pointers. -/
theorem fillArgs_stores (ran : fillLoop base maxargs 0 args next w = (.ok (n, filled), w'))
    (few : n < MAX_ARGS) : fillArgs maxargs base args next w = storeArg filled (base + n) .null w' := by
  rw [fillArgs, Dialog.bind_ok _ ran]
  exact congrFun (if_neg (Nat.ne_of_lt few)) w'

theorem fillArgs_spec (remaining : Remaining w.state next strings) (filled_to : filled.length = base)
    (space : maxargs ≤ tail.length) (few : maxargs < MAX_ARGS)
    (room : (strings.take maxargs).length < tail.length) :
    ∃ mem pointers,
      fillArgs maxargs base (filled ++ tail) next w =
        (.ok (filled ++ argsOf pointers ++ .null :: tail.drop (pointers.length + 1)),
          { w with state := mem }) ∧
      List.Forall₂ (StringAt mem) pointers (strings.take maxargs) ∧
      ∀ p₀ s₀, StringAt w.state p₀ s₀ →
        (∀ q ∈ next, p₀ + s₀.length < q ∨ StringAt w.state q []) → StringAt mem p₀ s₀ := by
  obtain ⟨mem, pointers, ran, at_, kept⟩ := fillLoop_remaining remaining filled_to space
  refine ⟨mem, pointers, ?_, at_, kept⟩
  have same := at_.length_eq
  have short := List.length_take_le maxargs strings
  have filled_all : (filled ++ argsOf pointers).length = base + pointers.length := by
    simp [filled_to, argsOf]
  have stored := storeArg_next filled_all
    (show 0 < (tail.drop pointers.length).length by rw [List.length_drop]; omega)
    .null { w with state := mem }
  rw [fillArgs_stores ran (by omega), stored, List.tail_drop]

/-- Strings that take up the whole vector leave no room for the NULL, which is stored
behind the end. -/
theorem fillArgs_overflow (remaining : Remaining w.state next strings)
    (filled_to : filled.length = base) (space : maxargs = tail.length) (few : maxargs < MAX_ARGS)
    (full : maxargs ≤ strings.length) :
    ∃ mem, fillArgs maxargs base (filled ++ tail) next w =
      (.error .overflow, { w with state := mem }) := by
  obtain ⟨mem, pointers, ran, at_, -⟩ :=
    fillLoop_remaining remaining filled_to (Nat.le_of_eq space)
  have same := at_.length_eq
  rw [List.length_take, Nat.min_eq_left full] at same
  refine ⟨mem, ?_⟩
  have behind : ¬base + pointers.length <
      (filled ++ argsOf pointers ++ tail.drop pointers.length).length := by
    simp [filled_to, argsOf]
    omega
  rw [fillArgs_stores ran (by omega), storeArg, if_neg behind]
  rfl

theorem loadArgs_spec (strings : List.Forall₂ (Points w.state) pointers values) (rest : List Arg) :
    loadArgs (pointers.map .str ++ .null :: rest) w = (.ok values, w) := by
  induction strings with
  | nil => rfl
  | cons points _ ih =>
    rw [List.map_cons, List.cons_append, loadArgs, Dialog.bind_ok _ (loadString_spec points)]
    exact Dialog.bind_ok _ ih

/-- The pointers already stored, and their strings, which no later NUL reaches. -/
def Prepared (mem : List UInt8) (next : Option Nat) : List CharPtr → List (List UInt8) → Prop :=
  List.Forall₂ fun pointer s => Points mem pointer s ∧
    ∀ p, pointer = .line p → ∀ q ∈ next, p + s.length < q ∨ StringAt mem q []

theorem Prepared.kept (prepared : Prepared w.state next pointers values)
    (kept : ∀ p₀ s₀, StringAt w.state p₀ s₀ →
      (∀ q ∈ next, p₀ + s₀.length < q ∨ StringAt w.state q []) → StringAt mem p₀ s₀) :
    List.Forall₂ (Points mem) pointers values := by
  refine prepared.imp fun pointer s ⟨points, ahead⟩ => ?_
  cases pointer with
  | literal text => exact points
  | line p => exact kept p s points (ahead p rfl)

/-- Room for one more pointer than there are strings: the vector holds all of them. -/
theorem fillArgs_vector (prepared : Prepared w.state next pointers values)
    (remaining : Remaining w.state next strings) (some_stored : 0 < pointers.length)
    (few : pointers.length + strings.length < MAX_ARGS) :
    ∃ mem args,
      fillArgs (MAX_ARGS - pointers.length) pointers.length
        (pointers.map .str ++ List.replicate (MAX_ARGS - pointers.length) .uninit) next w =
        (.ok args, { w with state := mem }) ∧
      List.Forall₂ (Points mem) pointers values ∧
      ∀ v : World, v.state = mem → loadArgs args v = (.ok (values ++ strings), v) := by
  have room : (strings.take (MAX_ARGS - pointers.length)).length <
      (List.replicate (MAX_ARGS - pointers.length) Arg.uninit).length := by
    rw [List.length_take, List.length_replicate]
    omega
  obtain ⟨mem, found, filled, at_, kept⟩ := fillArgs_spec remaining (List.length_map Arg.str)
    (Nat.le_of_eq List.length_replicate.symm) (show MAX_ARGS - pointers.length < MAX_ARGS by omega)
    room
  rw [List.take_of_length_le (by omega)] at at_
  refine ⟨mem, _, filled, prepared.kept kept, ?_⟩
  rintro v rfl
  have points : List.Forall₂ (Points v.state) (pointers ++ found.map .line) (values ++ strings) :=
    List.rel_append (prepared.kept kept) (List.forall₂_map_left_iff.mpr at_)
  have loaded := loadArgs_spec points
    ((List.replicate (MAX_ARGS - pointers.length) Arg.uninit).drop (found.length + 1))
  rwa [List.map_append, List.map_map] at loaded

end Fill
end MinLinux.Command
