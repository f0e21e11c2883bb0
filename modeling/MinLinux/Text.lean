import Mathlib.Data.List.Basic

/-! Text in byte memory: strings that end at their first NUL, what overwriting one
byte does to them, and the words of a line. -/
namespace MinLinux.Text

section CString
variable {mem post s : List UInt8} {p i : Nat} {c : UInt8}

/-- The string that starts the bytes, or `none` when no NUL ends it. -/
def cstring : List UInt8 → Option (List UInt8)
  | [] => none
  | c :: rest => if c = 0 then some [] else (cstring rest).map (c :: ·)

theorem cstring_append (clean : 0 ∉ s) (post : List UInt8) :
    cstring (s ++ 0 :: post) = some s := by
  induction s with
  | nil => rfl
  | cons c rest ih =>
    simp only [List.mem_cons, not_or] at clean
    rw [List.cons_append, cstring, if_neg (Ne.symm clean.1), ih clean.2]
    rfl

theorem cstring_eq_some : cstring mem = some s ↔ 0 ∉ s ∧ ∃ post, mem = s ++ 0 :: post := by
  constructor
  · intro found
    induction mem generalizing s with
    | nil => cases found
    | cons c rest ih =>
      simp only [cstring] at found
      split at found
      · rename_i zero
        cases found
        exact ⟨List.not_mem_nil, rest, by rw [zero]; rfl⟩
      · rename_i nonzero
        obtain ⟨s', tail, rfl⟩ := Option.map_eq_some_iff.mp found
        obtain ⟨clean, post, rfl⟩ := ih tail
        exact ⟨by simp [clean, Ne.symm nonzero], post, rfl⟩
  · rintro ⟨clean, post, rfl⟩
    exact cstring_append clean post

/-- The string at address `p`. -/
def StringAt (mem : List UInt8) (p : Nat) (s : List UInt8) : Prop :=
  cstring (mem.drop p) = some s

theorem stringAt_iff : StringAt mem p s ↔
    0 ∉ s ∧ ∃ post, mem.drop p = s ++ 0 :: post := cstring_eq_some

theorem StringAt.tail (at_p : StringAt mem p (c :: s)) : StringAt mem (p + 1) s := by
  obtain ⟨clean, post, same⟩ := stringAt_iff.mp at_p
  refine stringAt_iff.mpr ⟨fun zero => clean (List.mem_cons_of_mem c zero), post, ?_⟩
  rw [← List.drop_drop, same]
  rfl

theorem StringAt.drop (at_p : StringAt mem p (front ++ s)) :
    StringAt mem (p + front.length) s := by
  induction front generalizing p with
  | nil => exact at_p
  | cons c rest ih =>
    have later := ih (p := p + 1) (StringAt.tail at_p)
    rwa [List.length_cons, Nat.add_comm rest.length, ← Nat.add_assoc]

/-- Overwriting a byte behind a string leaves the string. -/
theorem StringAt.set_after (at_p : StringAt mem p s) (beyond : p + s.length < i) (c : UInt8) :
    StringAt (mem.set i c) p s := by
  obtain ⟨clean, post, same⟩ := stringAt_iff.mp at_p
  refine stringAt_iff.mpr ⟨clean, post.set (i - p - s.length - 1) c, ?_⟩
  rw [List.drop_set, if_neg (by omega), same, List.set_append_right _ _ (by omega),
    show i - p - s.length = (i - p - s.length - 1) + 1 by omega, List.set_cons_succ]
  rfl

theorem StringAt.set_before (at_p : StringAt mem p s) (earlier : i < p) (c : UInt8) :
    StringAt (mem.set i c) p s := by
  unfold StringAt
  rwa [List.drop_set_of_lt earlier]

/-- A NUL written into a string cuts it in two. -/
theorem StringAt.cut (at_p : StringAt mem p (front ++ c :: s)) :
    StringAt (mem.set (p + front.length) 0) p front ∧
    StringAt (mem.set (p + front.length) 0) (p + front.length + 1) s := by
  constructor
  · obtain ⟨clean, post, same⟩ := stringAt_iff.mp at_p
    refine stringAt_iff.mpr ⟨fun zero => clean (List.mem_append_left _ zero), s ++ 0 :: post, ?_⟩
    rw [List.drop_set, if_neg (by omega), same, Nat.add_sub_cancel_left, List.append_assoc,
      List.set_append_right _ _ (Nat.le_refl _), Nat.sub_self]
    rfl
  · exact StringAt.set_before (StringAt.tail (StringAt.drop at_p)) (Nat.lt_succ_self _) 0

end CString

section Words
variable {α : Type} {sep : α → Bool} {x : α} {xs : List α}

/-- The maximal non-empty runs of characters that are no separators. -/
def words (sep : α → Bool) (xs : List α) : List (List α) :=
  (xs.splitOnP sep).filter fun run => !run.isEmpty

theorem words_sep (is_sep : sep x = true) : words sep (x :: xs) = words sep xs := by
  have split := List.splitOnP_append_cons [] xs is_sep
  simp only [List.nil_append] at split
  rw [words, split, List.splitOnP_nil]
  rfl

theorem words_dropWhile (xs : List α) : words sep (xs.dropWhile sep) = words sep xs := by
  induction xs with
  | nil => rfl
  | cons x rest ih =>
    cases is_sep : sep x with
    | true => rw [List.dropWhile_cons_of_pos is_sep, ih, words_sep is_sep]
    | false => rw [List.dropWhile_cons_of_neg (by simp [is_sep])]

/-- A run that starts a line is its first word, up to the separator behind it. -/
theorem words_run (nonempty : run ≠ []) (is_run : ∀ x ∈ run, sep x = false)
    (maximal : ∀ x ∈ xs.head?, sep x = true) :
    words sep (run ++ xs) = run :: words sep xs.tail := by
  cases xs with
  | nil => simp [words, List.splitOnP_eq_singleton is_run, nonempty]
  | cons x rest =>
    simp [words, List.splitOnP_append_cons_of_forall_mem is_run x (maximal x rfl), nonempty]

/-- A line that starts with a run splits off that run as its first word. -/
theorem words_takeWhile (starts : sep x = false) :
    words sep (x :: xs) = (x :: xs).takeWhile (fun c => !sep c) ::
      words sep ((x :: xs).dropWhile fun c => !sep c).tail := by
  conv_lhs => rw [← List.takeWhile_append_dropWhile (p := fun c => !sep c) (l := x :: xs)]
  refine words_run ?_ ?_ ?_
  · rw [List.takeWhile_cons_of_pos (by simp [starts])]
    exact List.cons_ne_nil _ _
  · intro y member
    simpa using List.all_eq_true.mp List.all_takeWhile y member
  · intro y head
    have first := List.head?_dropWhile_not (fun c => !sep c) (x :: xs)
    rw [Option.mem_def.mp head] at first
    simpa using first

end Words
end MinLinux.Text
