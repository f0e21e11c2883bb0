import Mathlib.Data.List.Basic
import MinLinux.Build.Project

/-! One build of `/init`. An object that is not older than its source and than project.py
is taken to be current, and an executable that is not older than the objects. -/
namespace MinLinux.Build.Project
open MinLinux.Action (Keeps)

section Newer

/-- The destination is there and no source is newer, or missing. -/
theorem isAnyNewer_false : isAnyNewer dst srcs = some false ↔
    ∃ dstmtime, dst = some dstmtime ∧
      ∀ src ∈ srcs, ∃ srcmtime, src = some srcmtime ∧ srcmtime ≤ dstmtime := by
  cases dst with
  | none => simp [isAnyNewer]
  | some dstmtime =>
    induction srcs with
    | nil => simp [isAnyNewer]
    | cons src rest ih =>
      cases src with
      | none => simp [isAnyNewer]
      | some srcmtime =>
        rw [isAnyNewer]
        split
        · rename_i newer
          simp [newer]
        · rename_i older
          rw [ih]
          simp [Nat.le_of_not_lt older]

theorem isAnyNewer_present (present : none ∉ srcs) : isAnyNewer dst srcs ≠ none := by
  cases dst with
  | none => simp [isAnyNewer]
  | some dstmtime =>
    induction srcs with
    | nil => simp [isAnyNewer]
    | cons src rest ih =>
      simp only [List.mem_cons, not_or] at present
      cases src with
      | none => exact absurd rfl present.1
      | some srcmtime =>
        rw [isAnyNewer]
        split
        · exact Option.some_ne_none _
        · exact ih present.2

end Newer

variable {S F O X : Type}

/-- No time is ahead of the clock, no directory is a file, an executable stands in its
directory, and an object that is not older than its source and than project.py is what the
compiler makes of them. -/
structure Sound (tools : Toolchain S F O X) (tree : Tree S F O X) : Prop where
  sources_le : ∀ s source, tree.sources s = some source → source.mtime ≤ tree.clock
  project_le : tree.project.mtime ≤ tree.clock
  objects_le : ∀ path object, tree.objects path = some object → object.mtime ≤ tree.clock
  elf_le : ∀ elf, tree.elf = some elf → elf.mtime ≤ tree.clock
  directories : ∀ path ∈ tree.directories, tree.isFile path = false
  housed : tree.elf ≠ none → outputInitElf.dropLast ∈ tree.directories
  current : ∀ s source object, tree.sources s = some source →
    tree.objects (outFile s) = some object → source.mtime ≤ object.mtime →
    tree.project.mtime ≤ object.mtime →
    tools.compile tree.project.content source.content = some object.content

theorem Sound.tick {tools : Toolchain S F O X} {tree : Tree S F O X} (sound : Sound tools tree) :
    Sound tools { tree with clock := tree.clock + 1 } := by
  constructor
  · exact fun s source found => Nat.le_succ_of_le (sound.sources_le s source found)
  · exact Nat.le_succ_of_le sound.project_le
  · exact fun path object there => Nat.le_succ_of_le (sound.objects_le path object there)
  · exact fun elf there => Nat.le_succ_of_le (sound.elf_le elf there)
  · exact sound.directories
  · exact sound.housed
  · exact sound.current

/-- No two sources share an object. -/
def Distinct (tree : Tree S F O X) : Prop :=
  ∀ a b, tree.sources a ≠ none → tree.sources b ≠ none → outFile a = outFile b → a = b

theorem isFile_eq_false {tree : Tree S F O X} : tree.isFile path = false ↔
    tree.objects path = none ∧ (path = outputInitElf → tree.elf = none) := by
  simp [Tree.isFile, Option.isSome_eq_false_iff, Decidable.imp_iff_not_or]

/-- The object of the source is there and current, in its directory. -/
def UpToDate (tools : Toolchain S F O X) (s : SourceFile) (tree : Tree S F O X) : Prop :=
  (∃ source object, tree.sources s = some source ∧ tree.objects (outFile s) = some object ∧
    source.mtime ≤ object.mtime ∧ tree.project.mtime ≤ object.mtime ∧
    tools.compile tree.project.content source.content = some object.content) ∧
  ∀ path, path <+: (outFile s).dropLast → path ∈ tree.directories

/-- What the compilation of the sources leaves as it is. -/
structure Compiling (tools : Toolchain S F O X) (start tree : Tree S F O X) : Prop where
  sources : tree.sources = start.sources
  project : tree.project = start.project
  elf : tree.elf = start.elf
  clock : start.clock ≤ tree.clock
  sound : Sound tools tree
  distinct : Distinct tree

section Compile
variable {tools : Toolchain S F O X} {keep : Bool} {start tree : Tree S F O X} {s b : SourceFile}

theorem mkdir_keeps (path : Path) : Keeps (Compiling tools start) (mkdir path) := by
  intro tree compiling
  rw [mkdir]
  split
  · exact compiling
  · rename_i clear
    constructor
    · exact compiling.sources
    · exact compiling.project
    · exact compiling.elf
    · exact compiling.clock
    · constructor
      · exact compiling.sound.sources_le
      · exact compiling.sound.project_le
      · exact compiling.sound.objects_le
      · exact compiling.sound.elf_le
      · intro p member
        rcases List.mem_append.mp member with made | earlier
        · exact Bool.eq_false_iff.mpr fun file => clear (List.any_eq_true.mpr ⟨p, made, file⟩)
        · exact compiling.sound.directories p earlier
      · exact fun linked => List.mem_append_right _ (compiling.sound.housed linked)
      · exact compiling.sound.current
    · exact compiling.distinct

/-- Either the object is not older than what it is made of, and nothing happens, or gcc
runs. -/
theorem compile_cases (tools : Toolchain S F O X) (keep : Bool)
    (found : tree.sources s = some source) :
    (∃ object, tree.objects (outFile s) = some object ∧ source.mtime ≤ object.mtime ∧
      tree.project.mtime ≤ object.mtime ∧ compile tools keep s tree = (true, tree)) ∨
    ∃ result, result = (if outFile s ∈ tree.directories then none
        else tools.compile tree.project.content source.content) ∧
      (∀ object, tree.objects (outFile s) = some object →
        ¬(source.mtime ≤ object.mtime ∧ tree.project.mtime ≤ object.mtime)) ∧
      compile tools keep s tree = (result.isSome, { tree with
        clock := tree.clock + 1
        objects := Function.update tree.objects (outFile s)
          (written keep (tree.clock + 1) (tree.objects (outFile s)) result) }) := by
  cases newer : isAnyNewer ((tree.objects (outFile s)).map File.mtime)
    [some source.mtime, some tree.project.mtime] with
  | none => exact absurd newer (isAnyNewer_present (by simp))
  | some newer' =>
    cases newer' with
    | false =>
      obtain ⟨time, old, all⟩ := isAnyNewer_false.mp newer
      obtain ⟨object, there, rfl⟩ := Option.map_eq_some_iff.mp old
      simp only [List.forall_mem_cons, Option.some.injEq, exists_eq_left'] at all
      refine .inl ⟨object, there, all.1, all.2.1, ?_⟩
      simp only [compile, found, newer]
    | true =>
      refine .inr ⟨_, rfl, ?_, ?_⟩
      · rintro object there ⟨source_le, project_le⟩
        have older : isAnyNewer ((tree.objects (outFile s)).map File.mtime)
            [some source.mtime, some tree.project.mtime] = some false := by
          apply isAnyNewer_false.mpr
          refine ⟨object.mtime, by rw [there]; rfl, ?_⟩
          simp [source_le, project_le]
        cases older.symm.trans newer
      · simp only [compile, found, newer]

theorem written_cases (there : written keep time old result = some file) :
    (result = some file.content ∧ file.mtime = time) ∨ (result = none ∧ old = some file) := by
  cases result with
  | some content =>
    cases there
    exact .inl ⟨rfl, rfl⟩
  | none =>
    rw [written] at there
    split at there
    · exact .inr ⟨rfl, there⟩
    · cases there

/-- What gcc wrote is newer than everything else, and current. -/
theorem sound_compiled (sound : Sound tools tree) (distinct : Distinct tree)
    (found : tree.sources s = some source)
    (made : ∀ object, result = some object → outFile s ∉ tree.directories ∧
      tools.compile tree.project.content source.content = some object) :
    Sound tools { tree with
      clock := tree.clock + 1
      objects := Function.update tree.objects (outFile s)
        (written keep (tree.clock + 1) (tree.objects (outFile s)) result) } := by
  have later := sound.tick
  constructor
  · exact later.sources_le
  · exact later.project_le
  · intro path object there
    by_cases same : path = outFile s
    · subst same
      simp only [Function.update_self] at there
      rcases written_cases there with ⟨-, time⟩ | ⟨-, old⟩
      · exact Nat.le_of_eq time
      · exact later.objects_le _ _ old
    · simp only [Function.update_of_ne same] at there
      exact later.objects_le _ _ there
  · exact later.elf_le
  · intro path directory
    obtain ⟨absent, unlinked⟩ := isFile_eq_false.mp (sound.directories path directory)
    apply isFile_eq_false.mpr
    refine ⟨?_, unlinked⟩
    by_cases same : path = outFile s
    · subst same
      cases result with
      | some object => exact absurd directory (made object rfl).1
      | none => simp [written, absent]
    · simp only [Function.update_of_ne same, absent]
  · exact later.housed
  · intro b source' object present there source_le project_le
    change tree.sources b = some source' at present
    by_cases same : outFile b = outFile s
    · have shared : b = s := distinct b s (by simp [present]) (by simp [found]) same
      subst shared
      cases present.symm.trans found
      simp only [Function.update_self] at there
      rcases written_cases there with ⟨new, -⟩ | ⟨-, old⟩
      · exact (made _ new).2
      · exact sound.current b source object found old source_le project_le
    · simp only [Function.update_of_ne same] at there
      exact sound.current b source' object present there source_le project_le

theorem compile_keeps (present : start.sources s ≠ none) :
    Keeps (Compiling tools start) (compile tools keep s) := by
  intro tree compiling
  rw [← compiling.sources] at present
  obtain ⟨source, found⟩ := Option.ne_none_iff_exists'.mp present
  rcases compile_cases tools keep found with
    ⟨object, -, -, -, same⟩ | ⟨result, made, -, same⟩
  · rw [same]
    exact compiling
  · rw [same]
    have later : start.clock ≤ tree.clock + 1 := Nat.le_succ_of_le compiling.clock
    refine ⟨compiling.sources, compiling.project, compiling.elf, later, ?_, ?_⟩
    · apply sound_compiled compiling.sound compiling.distinct found
      intro object some
      rw [some] at made
      split at made
      · cases made
      · rename_i free
        exact ⟨free, made.symm⟩
    · exact compiling.distinct

theorem gccC_keeps (present : start.sources s ≠ none) :
    Keeps (Compiling tools start) (gccC tools keep s) :=
  (mkdir_keeps _).andThen (compile_keeps present)

theorem mkdir_makes (path : Path) (made : (mkdir path tree).1 = true) :
    (∀ p, p <+: path → p ∈ (mkdir path tree).2.directories) ∧
      (∀ p ∈ tree.directories, p ∈ (mkdir path tree).2.directories) ∧
      ∃ directories, (mkdir path tree).2 = { tree with directories := directories } := by
  rw [mkdir] at made ⊢
  split at made
  · cases made
  · rename_i clear
    rw [if_neg clear]
    refine ⟨?_, ?_, _, rfl⟩
    · intro p above
      exact List.mem_append_left _ ((List.mem_inits _ _).mpr above)
    · intro p there
      exact List.mem_append_right _ there

/-- A compilation that returns leaves the object up to date. -/
theorem gccC_achieves (present : start.sources s ≠ none) (compiling : Compiling tools start tree)
    (returned : (gccC tools keep s tree).1 = true) :
    UpToDate tools s (gccC tools keep s tree).2 := by
  obtain ⟨made, compiled⟩ := Action.andThen_returns.mp returned
  obtain ⟨above, -, -⟩ := mkdir_makes _ made
  have compiling' := mkdir_keeps (outFile s).dropLast tree compiling
  rw [gccC, Action.andThen_world made]
  revert compiled above compiling'
  generalize (mkdir (outFile s).dropLast tree).2 = tree'
  intro compiled above compiling'
  rw [← compiling'.sources] at present
  obtain ⟨source, found⟩ := Option.ne_none_iff_exists'.mp present
  rcases compile_cases tools keep found with
    ⟨object, there, source_le, project_le, same⟩ | ⟨result, gcc, -, same⟩
  · rw [same]
    refine ⟨⟨source, object, found, there, source_le, project_le, ?_⟩, above⟩
    exact compiling'.sound.current s source object found there source_le project_le
  · rw [same] at compiled ⊢
    obtain ⟨content, rfl⟩ := Option.isSome_iff_exists.mp compiled
    split at gcc
    · cases gcc
    · refine ⟨⟨source, ⟨content, tree'.clock + 1⟩, found, ?_, ?_, ?_, gcc.symm⟩, above⟩
      · simp [written]
      · exact Nat.le_succ_of_le (compiling'.sound.sources_le s source found)
      · exact Nat.le_succ_of_le compiling'.sound.project_le

theorem mkdir_lasts (path : Path) (b : SourceFile) :
    Keeps (fun tree => Compiling tools start tree ∧ UpToDate tools b tree) (mkdir path) := by
  rintro tree ⟨compiling, object, above⟩
  refine ⟨mkdir_keeps path tree compiling, ?_⟩
  cases made : (mkdir path tree).1 with
  | true =>
    obtain ⟨-, more, directories, same⟩ := mkdir_makes _ made
    refine ⟨?_, fun path under => more path (above path under)⟩
    rw [same]
    exact object
  | false =>
    rw [mkdir] at made ⊢
    split at made
    · rename_i blocked
      rw [if_pos blocked]
      exact ⟨object, above⟩
    · cases made

theorem compile_lasts (present : start.sources s ≠ none) (b : SourceFile) :
    Keeps (fun tree => Compiling tools start tree ∧ UpToDate tools b tree)
      (compile tools keep s) := by
  rintro tree ⟨compiling, ⟨source, object, found, there, current⟩, above⟩
  refine ⟨compile_keeps present tree compiling, ?_⟩
  rw [← compiling.sources] at present
  obtain ⟨source', found'⟩ := Option.ne_none_iff_exists'.mp present
  rcases compile_cases tools keep found' with
    ⟨-, -, -, -, same⟩ | ⟨result, -, stale, same⟩
  · rw [same]
    exact ⟨⟨source, object, found, there, current⟩, above⟩
  · rw [same]
    have other : outFile b ≠ outFile s := by
      intro shared
      cases compiling.distinct b s (by simp [found]) present shared
      cases found.symm.trans found'
      exact stale object there ⟨current.1, current.2.1⟩
    refine ⟨⟨source, object, found, ?_, current⟩, above⟩
    rw [← there]
    exact Function.update_of_ne other _ _

/-- No later compilation touches it. -/
theorem gccC_lasts (present : start.sources s ≠ none) (b : SourceFile) :
    Keeps (fun tree => Compiling tools start tree ∧ UpToDate tools b tree) (gccC tools keep s) :=
  (mkdir_lasts _ b).andThen (compile_lasts present b)

end Compile

/-- What `c_files` finds. -/
structure Listing.Lists (listing : Listing) (tree : Tree S F O X) : Prop where
  util : ∀ s, s ∈ listing.util ↔ s.dir = .util ∧ tree.sources s ≠ none
  init : ∀ s, s ∈ listing.init ↔ s.dir = .init ∧ tree.sources s ≠ none

namespace Listing.Lists
variable {listing : Listing} {tree : Tree S F O X}

theorem files (lists : listing.Lists tree) (s : SourceFile) :
    s ∈ listing.files ↔ tree.sources s ≠ none := by
  rw [Listing.files, List.mem_append, lists.util, lists.init]
  cases s.dir with
  | init => simp
  | util => simp

theorem inside (lists : listing.Lists tree) : ∀ s ∈ listing.init, s.dir = .init :=
  fun s member => ((lists.init s).mp member).1

theorem util_present (lists : listing.Lists tree) : ∀ s ∈ listing.util, tree.sources s ≠ none :=
  fun s member => ((lists.util s).mp member).2

theorem init_present (lists : listing.Lists tree) : ∀ s ∈ listing.init, tree.sources s ≠ none :=
  fun s member => ((lists.init s).mp member).2

theorem of_sources (lists : listing.Lists tree) (same : after.sources = tree.sources) :
    listing.Lists after := by
  constructor
  · rw [same]
    exact lists.util
  · rw [same]
    exact lists.init

end Listing.Lists

section Libraries
variable {tools : Toolchain S F O X} {keep : Bool} {start tree : Tree S F O X}
  {listing : Listing}

theorem each_keeps {files : List SourceFile} (present : ∀ s ∈ files, start.sources s ≠ none)
    (keep : Bool) :
    Keeps (Compiling tools start) (.each (gccC tools keep) files) :=
  .each fun s member => gccC_keeps (present s member)

theorem each_upToDate {files : List SourceFile} (present : ∀ s ∈ files, start.sources s ≠ none)
    (compiling : Compiling tools start tree)
    (returned : (Action.each (gccC tools keep) files tree).1 = true) :
    ∀ s ∈ files, UpToDate tools s (Action.each (gccC tools keep) files tree).2 :=
  Action.each_achieves (fun s member => gccC_keeps (present s member))
    (fun s member _ compiling => gccC_achieves (present s member) compiling)
    (fun s member => gccC_lasts (present s member)) compiling returned

/-- Once both libraries are there, the objects of all sources are. -/
theorem libraries_upToDate (lists : listing.Lists start) (compiling : Compiling tools start tree)
    (returned : ((libUtil tools keep listing).andThen (libInit tools keep listing) tree).1 = true) :
    ∀ s ∈ listing.files,
      UpToDate tools s ((libUtil tools keep listing).andThen (libInit tools keep listing) tree).2 := by
  obtain ⟨first, second⟩ := Action.andThen_returns.mp returned
  have compiling' := each_keeps lists.util_present keep tree compiling
  rw [Action.andThen_world first]
  intro s member
  rcases List.mem_append.mp member with inInit | inUtil
  · exact each_upToDate lists.init_present compiling' second s inInit
  · have done := each_upToDate lists.util_present compiling first s inUtil
    have lasts : Keeps (fun tree => Compiling tools start tree ∧ UpToDate tools s tree)
        (.each (gccC tools keep) listing.init) :=
      .each fun b member => gccC_lasts (lists.init_present b member) s
    exact (lasts _ ⟨compiling', done⟩).2

end Libraries

/-- The object of a source as the tree is now. -/
def compiled (tools : Toolchain S F O X) (tree : Tree S F O X) (s : SourceFile) : Option O :=
  (tree.sources s).bind fun source => tools.compile tree.project.content source.content

section Link
variable {tools : Toolchain S F O X} {keep : Bool} {tree tree' : Tree S F O X}
  {listing listing' : Listing}

theorem UpToDate.compiled (current : UpToDate tools s tree) :
    ∃ object, tree.objects (outFile s) = some object ∧
      Project.compiled tools tree s = some object.content := by
  obtain ⟨⟨source, object, found, there, -, -, same⟩, -⟩ := current
  refine ⟨object, there, ?_⟩
  rw [Project.compiled, found]
  exact same

/-- What is not older than the object is not older than what it is made of. -/
theorem UpToDate.le (current : UpToDate tools s tree)
    (older : ∀ object, tree.objects (outFile s) = some object → object.mtime ≤ time) :
    (∀ source, tree.sources s = some source → source.mtime ≤ time) ∧
      tree.project.mtime ≤ time := by
  obtain ⟨⟨source, object, found, there, source_le, project_le, -⟩, -⟩ := current
  constructor
  · intro source' found'
    cases found.symm.trans found'
    exact source_le.trans (older object there)
  · exact project_le.trans (older object there)

theorem contents_eq {files : List SourceFile} (current : ∀ s ∈ files, UpToDate tools s tree) :
    ((files.map outFile).mapM fun path => (tree.objects path).map File.content) =
      some (files.filterMap (Project.compiled tools tree)) := by
  induction files with
  | nil => rfl
  | cons s rest ih =>
    obtain ⟨first, others⟩ := List.forall_mem_cons.mp current
    obtain ⟨object, there, same⟩ := first.compiled
    rw [List.map_cons, List.mapM_cons, there, ih others, List.filterMap_cons_some same]
    rfl

theorem objects_present (current : ∀ s ∈ listing.files, UpToDate tools s tree) :
    none ∉ (listing.files.map outFile).map fun path => (tree.objects path).map File.mtime := by
  intro missing
  obtain ⟨path, member, absent⟩ := List.mem_map.mp missing
  obtain ⟨s, file, rfl⟩ := List.mem_map.mp member
  obtain ⟨object, there, -⟩ := (current s file).compiled
  rw [there] at absent
  cases absent

theorem outFile_parent (s : SourceFile) :
    (outFile s).dropLast = outputBin ++ s.dir.name :: s.parents := by
  have last : outFile s = (outputBin ++ s.dir.name :: s.parents) ++ [objectName s.stem] := by
    simp [outFile]
  rw [last, List.dropLast_concat]

/-- The objects of the sources in `init/` bring the directory of the executable with them. -/
theorem UpToDate.directory (current : UpToDate tools s tree) (inside : s.dir = .init) :
    outputInitElf.dropLast ∈ tree.directories := by
  apply current.2
  rw [outFile_parent, inside]
  exact ⟨s.parents, rfl⟩

variable [DecidableEq O]

/-- The executable as the tree is now. -/
def linked (tools : Toolchain S F O X) (tree : Tree S F O X) (listing : Listing) : Option X :=
  tools.link tree.project.content (listing.files.filterMap (compiled tools tree)).toFinset

/-- It depends on the sources and on project.py, and on no order. -/
theorem linked_eq (lists : listing.Lists tree) (lists' : listing'.Lists tree')
    (sources : tree.sources = tree'.sources)
    (project : tree.project.content = tree'.project.content) :
    linked tools tree listing = linked tools tree' listing' := by
  rw [linked, linked, project]
  congr 1
  ext object
  simp only [List.mem_toFinset, List.mem_filterMap, lists.files, lists'.files, compiled, sources,
    project]

/-- The objects gcc links are those of the sources as they are now. -/
theorem link_result (current : ∀ s ∈ listing.files, UpToDate tools s tree)
    (nonempty : listing.init ≠ []) (inside : ∀ s ∈ listing.init, s.dir = .init) :
    (if outputInitElf.dropLast ∈ tree.directories ∧ outputInitElf ∉ tree.directories
      then ((listing.files.map outFile).mapM fun path => (tree.objects path).map File.content).bind
        fun objects => tools.link tree.project.content objects.toFinset
      else none) = if outputInitElf ∈ tree.directories then none
        else linked tools tree listing := by
  obtain ⟨s, first⟩ := List.exists_mem_of_ne_nil _ nonempty
  have directory := (current s (List.mem_append_left _ first)).directory (inside s first)
  rw [contents_eq current]
  by_cases blocked : outputInitElf ∈ tree.directories
  · rw [if_neg (not_and_not_right.mpr fun _ => blocked), if_pos blocked]
  · rw [if_pos ⟨directory, blocked⟩, if_neg blocked]
    rfl

/-- Either no object is newer than the executable, and nothing happens, or gcc runs. -/
theorem init_cases (keep : Bool) (current : ∀ s ∈ listing.files, UpToDate tools s tree)
    (nonempty : listing.init ≠ []) (inside : ∀ s ∈ listing.init, s.dir = .init) :
    (∃ elf, tree.elf = some elf ∧ init tools keep listing tree = (true, tree) ∧
      ∀ s ∈ listing.files, ∀ object, tree.objects (outFile s) = some object →
        object.mtime ≤ elf.mtime) ∨
    ∃ result, result = (if outputInitElf ∈ tree.directories then none
        else linked tools tree listing) ∧
      init tools keep listing tree = (result.isSome, { tree with
        clock := tree.clock + 1
        elf := written keep (tree.clock + 1) tree.elf result }) := by
  cases newer : isAnyNewer (tree.elf.map File.mtime)
    ((listing.files.map outFile).map fun path => (tree.objects path).map File.mtime) with
  | none => exact absurd newer (isAnyNewer_present (objects_present current))
  | some newer' =>
    cases newer' with
    | false =>
      obtain ⟨time, old, all⟩ := isAnyNewer_false.mp newer
      obtain ⟨elf, there, rfl⟩ := Option.map_eq_some_iff.mp old
      refine .inl ⟨elf, there, ?_, ?_⟩
      · simp only [init, newer]
      · intro s member object found
        have member' := List.mem_map_of_mem (f := fun path => (tree.objects path).map File.mtime)
          (List.mem_map_of_mem (f := outFile) member)
        obtain ⟨time, same, le⟩ := all _ member'
        rw [found] at same
        cases same
        exact le
    | true =>
      exact .inr ⟨_, rfl, by simp only [init, newer, link_result current nonempty inside]⟩

end Link

/-- Where a build of the tree writes. -/
def Output (tree : Tree S F O X) (path : Path) : Prop :=
  path = outputInitElf ∨ ∃ s, tree.sources s ≠ none ∧ path = outFile s

/-- No output is a directory or has to become one. -/
structure Clear (tree : Tree S F O X) : Prop where
  free : ∀ path, Output tree path → path ∉ tree.directories
  above : ∀ path, Output tree path → ∀ s, tree.sources s ≠ none → ¬path <+: (outFile s).dropLast

/-- While nothing but the objects of the sources has been written. -/
structure Pristine (tools : Toolchain S F O X) (start tree : Tree S F O X) : Prop
    extends Compiling tools start tree where
  clear : Clear tree
  objects : ∀ path, tree.objects path ≠ none → ∃ s, start.sources s ≠ none ∧ path = outFile s

section Pristine
variable {tools : Toolchain S F O X} {keep : Bool} {start tree : Tree S F O X} {s : SourceFile}

/-- What a build has written is in the way of nothing that it writes. -/
theorem clear_of_built (sound : Sound tools tree)
    (current : ∀ s, tree.sources s ≠ none → UpToDate tools s tree)
    (unblocked : outputInitElf ∉ tree.directories) : Clear tree := by
  have free : ∀ path, Output tree path → path ∉ tree.directories := by
    rintro path (rfl | ⟨s, present, rfl⟩) directory
    · exact unblocked directory
    · obtain ⟨-, object, -, made, -⟩ := (current s present).1
      cases (isFile_eq_false.mp (sound.directories _ directory)).1.symm.trans made
  constructor
  · exact free
  · intro path output s present above
    exact free path output ((current s present).2 path above)

theorem mkdir_pristine (present : start.sources s ≠ none) :
    Keeps (Pristine tools start) (mkdir (outFile s).dropLast) := by
  intro tree pristine
  have compiling := mkdir_keeps (outFile s).dropLast tree pristine.toCompiling
  rw [mkdir] at compiling ⊢
  split
  · exact pristine
  · rename_i clear
    rw [if_neg clear] at compiling
    refine ⟨compiling, ?_, pristine.objects⟩
    constructor
    · intro path output member
      rcases List.mem_append.mp member with made | earlier
      · exact pristine.clear.above path output s (pristine.sources ▸ present)
          ((List.mem_inits _ _).mp made)
      · exact pristine.clear.free path output earlier
    · exact pristine.clear.above

theorem compile_pristine (present : start.sources s ≠ none) :
    Keeps (Pristine tools start) (compile tools keep s) := by
  intro tree pristine
  have compiling : Compiling tools start (compile tools keep s tree).2 :=
    compile_keeps present tree pristine.toCompiling
  obtain ⟨source, found⟩ := Option.ne_none_iff_exists'.mp (pristine.sources ▸ present)
  rcases compile_cases tools keep found with ⟨-, -, -, -, same⟩ | ⟨result, -, -, same⟩
  · rw [same]
    exact pristine
  · rw [same] at compiling ⊢
    refine ⟨compiling, ⟨pristine.clear.free, pristine.clear.above⟩, ?_⟩
    intro path there
    by_cases own : path = outFile s
    · exact ⟨s, present, own⟩
    · simp only [Function.update_of_ne own] at there
      exact pristine.objects path there

theorem gccC_pristine (present : start.sources s ≠ none) :
    Keeps (Pristine tools start) (gccC tools keep s) :=
  (mkdir_pristine present).andThen (compile_pristine present)

/-- Then no file is in the way of a directory. -/
theorem mkdir_returns (pristine : Pristine tools start tree) (unbuilt : start.elf = none)
    (present : start.sources s ≠ none) : (mkdir (outFile s).dropLast tree).1 = true := by
  rw [mkdir]
  split
  · rename_i blocked
    obtain ⟨path, above, file⟩ := List.any_eq_true.mp blocked
    have under := (List.mem_inits _ _).mp above
    have there : tree.objects path ≠ none := by
      intro absent
      simp [Tree.isFile, absent, pristine.elf, unbuilt] at file
    obtain ⟨b, inside, rfl⟩ := pristine.objects path there
    have output : Output tree (outFile b) := .inr ⟨b, pristine.sources ▸ inside, rfl⟩
    exact absurd under (pristine.clear.above _ output s (pristine.sources ▸ present))
  · rfl

theorem compile_returns (pristine : Pristine tools start tree)
    (compiles : compiled tools start s ≠ none) : (compile tools keep s tree).1 = true := by
  rw [compiled, ← pristine.sources, ← pristine.project] at compiles
  cases found : tree.sources s with
  | none =>
    rw [found] at compiles
    exact absurd rfl compiles
  | some source =>
    rw [found] at compiles
    rcases compile_cases tools keep found with ⟨-, -, -, -, same⟩ | ⟨result, made, -, same⟩
    · rw [same]
    · have free := pristine.clear.free (outFile s) (.inr ⟨s, by simp [found], rfl⟩)
      rw [if_neg free] at made
      rw [same, made]
      exact Option.isSome_iff_ne_none.mpr compiles

theorem gccC_returns (pristine : Pristine tools start tree) (unbuilt : start.elf = none)
    (present : start.sources s ≠ none) (compiles : compiled tools start s ≠ none) :
    (gccC tools keep s tree).1 = true := by
  apply Action.andThen_returns.mpr
  constructor
  · exact mkdir_returns pristine unbuilt present
  · exact compile_returns (mkdir_pristine present tree pristine) compiles

/-- The libraries of an empty output directory build if every source compiles. -/
theorem libraries_return {listing : Listing} (pristine : Pristine tools start tree)
    (unbuilt : start.elf = none) (lists : listing.Lists start)
    (compiles : ∀ s, start.sources s ≠ none → compiled tools start s ≠ none) (keep : Bool) :
    ((libUtil tools keep listing).andThen (libInit tools keep listing) tree).1 = true := by
  have returns : ∀ files : List SourceFile, (∀ s ∈ files, start.sources s ≠ none) →
      ∀ tree, Pristine tools start tree → (Action.each (gccC tools keep) files tree).1 = true := by
    intro files present tree pristine
    apply Action.each_returns (I := Pristine tools start)
    · intro s member tree pristine
      exact gccC_returns pristine unbuilt (present s member) (compiles s (present s member))
    · exact fun s member => gccC_pristine (present s member)
    · exact pristine
  have kept : Keeps (Pristine tools start) (libUtil tools keep listing) :=
    .each fun s member => gccC_pristine (lists.util_present s member)
  apply Action.andThen_returns.mpr
  constructor
  · exact returns _ lists.util_present tree pristine
  · exact returns _ lists.init_present _ (kept tree pristine)

theorem libraries_pristine {listing : Listing} (lists : listing.Lists start) (keep : Bool) :
    Keeps (Pristine tools start)
      ((libUtil tools keep listing).andThen (libInit tools keep listing)) := by
  apply Keeps.andThen
  · exact .each fun s member => gccC_pristine (lists.util_present s member)
  · exact .each fun s member => gccC_pristine (lists.init_present s member)

end Pristine

section Bodies
variable {tools : Toolchain S F O X} {keep : Bool} {tree : Tree S F O X} {listing : Listing}

theorem Compiling.refl (sound : Sound tools tree) (distinct : Distinct tree) :
    Compiling tools tree tree := ⟨rfl, rfl, rfl, Nat.le_refl _, sound, distinct⟩

theorem libraries_keep (lists : listing.Lists tree) (keep : Bool) :
    Keeps (Compiling tools tree) ((libUtil tools keep listing).andThen (libInit tools keep listing)) :=
  (each_keeps lists.util_present keep).andThen (each_keeps lists.init_present keep)

variable [DecidableEq O]

/-- What a build leaves, however it ends: an executable it has written is the current one. -/
structure Built (tools : Toolchain S F O X) (listing : Listing) (tree after : Tree S F O X) :
    Prop where
  sources : after.sources = tree.sources
  project : after.project = tree.project
  sound : Sound tools after
  elf : after.elf = tree.elf ∨ ∀ elf, after.elf = some elf →
    linked tools tree listing = some elf.content ∧ tree.clock < elf.mtime

theorem Compiling.built (compiling : Compiling tools tree after) :
    Built tools listing tree after :=
  ⟨compiling.sources, compiling.project, compiling.sound, .inl compiling.elf⟩

theorem Compiling.linked_eq (compiling : Compiling tools tree after) (lists : listing.Lists tree) :
    linked tools after listing = linked tools tree listing :=
  Project.linked_eq (lists.of_sources compiling.sources) lists compiling.sources
    (by rw [compiling.project])

theorem linked_built (compiling : Compiling tools tree after) (lists : listing.Lists tree)
    (keep : Bool) (housed : outputInitElf.dropLast ∈ after.directories)
    (made : ∀ content, result = some content →
      outputInitElf ∉ after.directories ∧ linked tools after listing = some content) :
    Built tools listing tree { after with
      clock := after.clock + 1
      elf := written keep (after.clock + 1) after.elf result } := by
  have later := compiling.sound.tick
  constructor
  · exact compiling.sources
  · exact compiling.project
  · constructor
    · exact later.sources_le
    · exact later.project_le
    · exact later.objects_le
    · intro elf there
      rcases written_cases there with ⟨-, time⟩ | ⟨-, old⟩
      · exact Nat.le_of_eq time
      · exact later.elf_le elf old
    · intro path directory
      obtain ⟨absent, unlinked⟩ := isFile_eq_false.mp (later.directories path directory)
      apply isFile_eq_false.mpr
      refine ⟨absent, ?_⟩
      rintro rfl
      cases result with
      | some content => exact absurd directory (made content rfl).1
      | none =>
        have gone : after.elf = none := unlinked rfl
        simp [written, gone]
    · exact fun _ => housed
    · exact later.current
  · cases result with
    | some content =>
      right
      rintro elf ⟨⟩
      rw [← compiling.linked_eq lists]
      exact ⟨(made content rfl).2, Nat.lt_succ_of_le compiling.clock⟩
    | none =>
      cases keep with
      | true => exact .inl compiling.elf
      | false => exact .inr nofun

/-- The executable of a run of gcc that succeeds. -/
theorem linked_of_result (made : result = if outputInitElf ∈ tree.directories then none
    else linked tools tree listing) (some : result = some content) :
    outputInitElf ∉ tree.directories ∧ linked tools tree listing = .some content := by
  rw [some] at made
  split at made
  · cases made
  · rename_i free
    exact ⟨free, made.symm⟩

omit [DecidableEq O] in
/-- The objects of `util/` have directories of their own. -/
theorem gccC_unhoused (util : s.dir = .util) :
    Keeps (fun tree : Tree S F O X => outputInitElf.dropLast ∉ tree.directories)
      (gccC tools keep s) := by
  apply Keeps.andThen
  · intro tree unhoused
    rw [mkdir]
    split
    · exact unhoused
    · intro member
      rcases List.mem_append.mp member with made | earlier
      · have above := (List.mem_inits _ _).mp made
        rw [outFile_parent, util] at above
        simp [outputInitElf, outputBin, SourceDir.name] at above
      · exact unhoused earlier
  · intro tree unhoused
    rw [compile]
    dsimp only
    split
    · exact unhoused
    · split <;> exact unhoused

theorem init_unhoused (unlinked : tree.elf = none)
    (unhoused : outputInitElf.dropLast ∉ tree.directories) :
    init tools keep listing tree = (false, { tree with clock := tree.clock + 1 }) := by
  have kept : written keep (tree.clock + 1) tree.elf none = tree.elf := by simp [written, unlinked]
  simp only [init, unlinked, Option.map_none, isAnyNewer, unhoused, false_and, if_false,
    Option.isSome_none]
  rw [← unlinked, kept]

/-- Without a directory for it there is no executable, and without a source in `init/`
nothing makes that directory, so the build raises. -/
theorem bodies_unhoused (sound : Sound tools tree) (distinct : Distinct tree)
    (lists : listing.Lists tree) (empty : listing.init = [])
    (unhoused : outputInitElf.dropLast ∉ tree.directories) (keep : Bool) :
    (bodies tools keep listing tree).1 = false ∧
      Built tools listing tree (bodies tools keep listing tree).2 := by
  have compiling := libraries_keep lists keep tree (.refl sound distinct)
  have util : Keeps (fun tree : Tree S F O X => outputInitElf.dropLast ∉ tree.directories)
      (libUtil tools keep listing) :=
    .each fun s member => gccC_unhoused ((lists.util s).mp member).1
  have inside : Keeps (fun tree : Tree S F O X => outputInitElf.dropLast ∉ tree.directories)
      (libInit tools keep listing) := by
    rw [libInit, empty]
    exact .each nofun
  have unhoused' := (util.andThen inside) tree unhoused
  rw [bodies, Action.andThen]
  split
  · have unlinked : ((libUtil tools keep listing).andThen (libInit tools keep listing) tree).2.elf =
        none := by
      by_contra linked
      exact unhoused' (compiling.sound.housed linked)
    rw [init_unhoused unlinked unhoused']
    exact ⟨rfl, compiling.sources, compiling.project, compiling.sound.tick, .inl compiling.elf⟩
  · rename_i raised
    exact ⟨Bool.eq_false_of_not_eq_true raised, compiling.built⟩

/-- A build either leaves the executable or writes the one that is current. -/
theorem bodies_built (sound : Sound tools tree) (distinct : Distinct tree)
    (lists : listing.Lists tree)
    (inside : outputInitElf.dropLast ∈ tree.directories → listing.init ≠ []) (keep : Bool) :
    Built tools listing tree (bodies tools keep listing tree).2 := by
  by_cases empty : listing.init = []
  · exact (bodies_unhoused sound distinct lists empty (fun housed => inside housed empty) keep).2
  have compiling := libraries_keep lists keep tree (.refl sound distinct)
  rw [bodies, Action.andThen]
  split
  · rename_i returned
    have current := libraries_upToDate lists (.refl sound distinct) returned
    rcases init_cases keep current empty lists.inside with ⟨elf, -, same, -⟩ | ⟨result, made, same⟩
    · rw [same]
      exact compiling.built
    · rw [same]
      obtain ⟨s, first⟩ := List.exists_mem_of_ne_nil _ empty
      have housed := (current s (List.mem_append_left _ first)).directory (lists.inside s first)
      exact linked_built compiling lists keep housed fun _ => linked_of_result made
  · exact compiling.built

/-- From an empty output directory the executable is written whenever it can be. -/
theorem bodies_written (sound : Sound tools tree) (distinct : Distinct tree) (clear : Clear tree)
    (lists : listing.Lists tree) (nonempty : listing.init ≠ []) (unbuilt : tree.elf = none)
    (unmade : tree.objects = fun _ => none)
    (compiles : ∀ s, tree.sources s ≠ none → compiled tools tree s ≠ none)
    (links : linked tools tree listing = some content) (keep : Bool) :
    (bodies tools keep listing tree).1 = true ∧
      (bodies tools keep listing tree).2.elf.map File.content = some content := by
  have pristine : Pristine tools tree tree := by
    refine ⟨.refl sound distinct, clear, ?_⟩
    intro path there
    rw [unmade] at there
    exact absurd rfl there
  have returned := libraries_return pristine unbuilt lists compiles keep
  have current := libraries_upToDate lists pristine.toCompiling returned
  have pristine' := libraries_pristine lists keep tree pristine
  rw [bodies, Action.andThen_world returned]
  rcases init_cases keep current nonempty lists.inside with ⟨elf, there, -, -⟩ | ⟨result, made, same⟩
  · rw [pristine'.elf, unbuilt] at there
    cases there
  · rw [if_neg (pristine'.clear.free _ (.inl rfl)), pristine'.linked_eq lists, links] at made
    rw [same, made]
    exact ⟨rfl, rfl⟩

end Bodies
end MinLinux.Build.Project
