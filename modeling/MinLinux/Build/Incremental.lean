import MinLinux.Build.Compilation

/-! Incremental builds of `/init`. Objects are compared with their sources by time, and the
executable with the objects of the sources there are now, so that only the removal of a
source can leave it behind. -/
namespace MinLinux.Build.Project

variable {S F O X : Type}

/-- The same sources with an empty output directory. -/
def Tree.emptied (tree : Tree S F O X) : Tree S F O X :=
  { tree with directories := [], objects := fun _ => none, elf := none }

namespace Tree

/-- An edit of a source, or a new one. -/
def write (tree : Tree S F O X) (s : SourceFile) (content : S) : Tree S F O X :=
  { tree with
    clock := tree.clock + 1
    sources := Function.update tree.sources s (some ⟨content, tree.clock + 1⟩) }

def remove (tree : Tree S F O X) (s : SourceFile) : Tree S F O X :=
  { tree with sources := Function.update tree.sources s none }

/-- An edit of project.py. -/
def edit (tree : Tree S F O X) (flags : F) : Tree S F O X :=
  { tree with
    clock := tree.clock + 1
    project := ⟨flags, tree.clock + 1⟩ }

end Tree

/-- The tree, and what it was when the executable in it was written. -/
structure Session (S F O X : Type) where
  tree : Tree S F O X
  origin : Tree S F O X

/-- What the code relies on when it builds `init`: that no two sources share an object, that
the directory of the executable, once it is there, is one that a source brings with it, and
that an executable whose sources have not all stayed is out of date anyway. -/
structure Meets (session : Session S F O X) : Prop where
  distinct : Distinct session.tree
  inside : outputInitElf.dropLast ∈ session.tree.directories →
    ∃ s, s.dir = .init ∧ session.tree.sources s ≠ none
  stayed : ∀ elf, session.tree.elf = some elf →
    elf.mtime < session.tree.project.mtime ∨
    (∃ s source, session.tree.sources s = some source ∧ elf.mtime < source.mtime) ∨
    ∀ s, session.origin.sources s ≠ none → session.tree.sources s ≠ none

section Edits
variable {tools : Toolchain S F O X} {tree origin : Tree S F O X} {listing : Listing}

theorem Meets.nonempty (meets : Meets ⟨tree, origin⟩) (lists : listing.Lists tree)
    (housed : outputInitElf.dropLast ∈ tree.directories) : listing.init ≠ [] := by
  obtain ⟨s, inside, present⟩ := meets.inside housed
  exact List.ne_nil_of_mem ((lists.init s).mpr ⟨inside, present⟩)

theorem Sound.emptied (sound : Sound tools tree) : Sound tools tree.emptied :=
  ⟨sound.sources_le, sound.project_le, nofun, nofun, nofun, fun linked => absurd rfl linked, nofun⟩

theorem Clear.emptied (clear : Clear after) (sources : after.sources = tree.sources) :
    Clear tree.emptied := by
  have outputs : ∀ path, Output tree.emptied path → Output after path := by
    rintro path (same | ⟨s, present, same⟩)
    · exact .inl same
    · exact .inr ⟨s, sources ▸ present, same⟩
  constructor
  · exact fun _ _ => List.not_mem_nil
  · exact fun path output s present => clear.above path (outputs path output) s (sources ▸ present)

theorem write_sources (found : (tree.write s content).sources b = some source) :
    source.mtime = tree.clock + 1 ∨ tree.sources b = some source := by
  by_cases same : b = s
  · subst same
    simp only [Tree.write, Function.update_self] at found
    cases found
    exact .inl rfl
  · simp only [Tree.write, Function.update_of_ne same] at found
    exact .inr found

theorem remove_sources (found : (tree.remove s).sources b = some source) :
    tree.sources b = some source := by
  by_cases same : b = s
  · subst same
    simp only [Tree.remove, Function.update_self] at found
    cases found
  · simpa only [Tree.remove, Function.update_of_ne same] using found

/-- A source that has just been written is newer than every object. -/
theorem Sound.write (sound : Sound tools tree) (s : SourceFile) (content : S) :
    Sound tools (tree.write s content) := by
  have later := sound.tick
  constructor
  · intro b source found
    rcases write_sources found with new | old
    · exact Nat.le_of_eq new
    · exact later.sources_le b source old
  · exact later.project_le
  · exact later.objects_le
  · exact later.elf_le
  · exact later.directories
  · exact later.housed
  · intro b source object found there source_le project_le
    rcases write_sources found with new | old
    · rw [new] at source_le
      exact absurd (sound.objects_le _ object there) (Nat.not_le.mpr source_le)
    · exact sound.current b source object old there source_le project_le

theorem Sound.remove (sound : Sound tools tree) (s : SourceFile) :
    Sound tools (tree.remove s) := by
  constructor
  · exact fun b source found => sound.sources_le b source (remove_sources found)
  · exact sound.project_le
  · exact sound.objects_le
  · exact sound.elf_le
  · exact sound.directories
  · exact sound.housed
  · exact fun b source object found => sound.current b source object (remove_sources found)

/-- So is project.py. -/
theorem Sound.edit (sound : Sound tools tree) (flags : F) : Sound tools (tree.edit flags) := by
  have later := sound.tick
  constructor
  · exact later.sources_le
  · exact Nat.le_refl _
  · exact later.objects_le
  · exact later.elf_le
  · exact later.directories
  · exact later.housed
  · intro s source object _ there _ project_le
    exact absurd (sound.objects_le _ object there) (Nat.not_le.mpr project_le)

end Edits

section Sessions
variable [DecidableEq O]

/-- Edits of the sources and of project.py, and builds, from an empty output directory.
Every file that is written gets the next time of the clock. -/
inductive Reachable (tools : Toolchain S F O X) : Session S F O X → Prop where
  | start (tree : Tree S F O X)
      (sources : ∀ s source, tree.sources s = some source → source.mtime ≤ tree.clock)
      (project : tree.project.mtime ≤ tree.clock) : Reachable tools ⟨tree.emptied, tree.emptied⟩
  | write (reached : Reachable tools ⟨tree, origin⟩) (s : SourceFile) (content : S) :
      Reachable tools ⟨tree.write s content, origin⟩
  | remove (reached : Reachable tools ⟨tree, origin⟩) (s : SourceFile) :
      Reachable tools ⟨tree.remove s, origin⟩
  | edit (reached : Reachable tools ⟨tree, origin⟩) (flags : F) :
      Reachable tools ⟨tree.edit flags, origin⟩
  | run (reached : Reachable tools ⟨tree, origin⟩) (keep : Bool) (listing : Listing)
      (lists : listing.Lists tree) (meets : Meets ⟨tree, origin⟩)
      (after : (runInit tools keep listing tree).2.world = tree') :
      Reachable tools ⟨tree',
        if tree'.elf.map File.mtime = tree.elf.map File.mtime then origin else tree'⟩

/-- An executable was linked from what was there, and what has not been written since has
been there all along. -/
structure Remembers (tools : Toolchain S F O X) (tree origin : Tree S F O X) : Prop where
  sources : ∀ elf, tree.elf = some elf → ∀ s source, tree.sources s = some source →
    source.mtime ≤ elf.mtime → origin.sources s = some source
  project : ∀ elf, tree.elf = some elf → tree.project.mtime ≤ elf.mtime →
    origin.project = tree.project
  linked : ∀ elf, tree.elf = some elf → ∃ listing : Listing, listing.Lists origin ∧
    Project.linked tools origin listing = some elf.content

section Steps
variable {tools : Toolchain S F O X} {keep : Bool} {tree origin : Tree S F O X}
  {listing : Listing}

namespace Remembers

theorem write (remembers : Remembers tools tree origin) (sound : Sound tools tree)
    (s : SourceFile) (content : S) : Remembers tools (tree.write s content) origin := by
  constructor
  · intro elf there b source found source_le
    rcases write_sources found with new | old
    · rw [new] at source_le
      exact absurd (sound.elf_le elf there) (Nat.not_le.mpr source_le)
    · exact remembers.sources elf there b source old source_le
  · exact remembers.project
  · exact remembers.linked

theorem remove (remembers : Remembers tools tree origin) (s : SourceFile) :
    Remembers tools (tree.remove s) origin := by
  constructor
  · exact fun elf there b source found => remembers.sources elf there b source (remove_sources found)
  · exact remembers.project
  · exact remembers.linked

theorem edit (remembers : Remembers tools tree origin) (sound : Sound tools tree) (flags : F) :
    Remembers tools (tree.edit flags) origin := by
  constructor
  · exact remembers.sources
  · intro elf there project_le
    exact absurd (sound.elf_le elf there) (Nat.not_le.mpr project_le)
  · exact remembers.linked

theorem of_unlinked (gone : tree.elf = none) : Remembers tools tree origin := by
  constructor
  all_goals
    intro elf there
    rw [gone] at there
    cases there

/-- An executable that has just been linked is remembered as it is. -/
theorem of_linked (lists : listing.Lists tree)
    (linked : ∀ elf, tree.elf = some elf → Project.linked tools tree listing = some elf.content) :
    Remembers tools tree tree := by
  constructor
  · exact fun _ _ _ _ found _ => found
  · exact fun _ _ _ => rfl
  · exact fun elf there => ⟨listing, lists, linked elf there⟩

/-- A build either leaves the executable alone or writes a newer one. -/
theorem built (remembers : Remembers tools tree origin) (sound : Sound tools tree)
    (lists : listing.Lists tree) (built : Built tools listing tree after) :
    Remembers tools after
      (if after.elf.map File.mtime = tree.elf.map File.mtime then origin else after) := by
  rcases built.elf with same | new
  · rw [if_pos (by rw [same])]
    constructor
    · rw [same, built.sources]
      exact remembers.sources
    · rw [same, built.project]
      exact remembers.project
    · rw [same]
      exact remembers.linked
  · split
    · rename_i unchanged
      apply of_unlinked
      cases there : after.elf with
      | none => rfl
      | some elf =>
        obtain ⟨-, later⟩ := new elf there
        rw [there] at unchanged
        obtain ⟨old, was, time⟩ := Option.map_eq_some_iff.mp unchanged.symm
        have bound := sound.elf_le old was
        omega
    · have lists' := lists.of_sources built.sources
      apply of_linked lists'
      intro elf there
      rw [linked_eq lists' lists built.sources (by rw [built.project])]
      exact (new elf there).1

end Remembers

theorem Reachable.invariant (reached : Reachable tools session) :
    Sound tools session.tree ∧ Remembers tools session.tree session.origin := by
  induction reached with
  | start tree sources project =>
    exact ⟨⟨sources, project, nofun, nofun, nofun, fun linked => absurd rfl linked, nofun⟩, nofun,
      nofun, nofun⟩
  | write _ s content ih => exact ⟨ih.1.write s content, ih.2.write ih.1 s content⟩
  | remove _ s ih => exact ⟨ih.1.remove s, ih.2.remove s⟩
  | edit _ flags ih => exact ⟨ih.1.edit flags, ih.2.edit ih.1 flags⟩
  | run _ keep listing lists meets after ih =>
    have built := bodies_built ih.1 meets.distinct lists (meets.nonempty lists) keep
    rw [← (runInit_eq tools keep listing _).1, after] at built
    exact ⟨built.sound, ih.2.built ih.1 lists built⟩

/-- If nothing has been written since and no source has gone, the executable is that of the
tree as it is now. -/
theorem Remembers.current (remembers : Remembers tools tree origin) (lists : listing.Lists tree)
    (there : tree.elf = some elf) (project_le : tree.project.mtime ≤ elf.mtime)
    (sources_le : ∀ s source, tree.sources s = some source → source.mtime ≤ elf.mtime)
    (stayed : ∀ s, origin.sources s ≠ none → tree.sources s ≠ none) :
    Project.linked tools tree listing = some elf.content := by
  have sources : tree.sources = origin.sources := by
    funext s
    cases found : tree.sources s with
    | some source =>
      exact (remembers.sources elf there s source found (sources_le s source found)).symm
    | none =>
      by_contra gone
      exact stayed s (Ne.symm gone) found
  obtain ⟨listing', lists', same⟩ := remembers.linked elf there
  rw [linked_eq lists lists' sources (by rw [remembers.project elf there project_le])]
  exact same

/-- The last step leaves the executable where it is only if it is current. -/
theorem init_current (remembers : Remembers tools tree origin) (meets : Meets ⟨tree, origin⟩)
    (lists : listing.Lists tree) (nonempty : listing.init ≠ []) (compiling : Compiling tools tree after)
    (current : ∀ s ∈ listing.files, UpToDate tools s after)
    (returned : (init tools keep listing after).1 = true) :
    outputInitElf ∉ after.directories ∧ ∃ elf, (init tools keep listing after).2.elf = some elf ∧
      linked tools tree listing = some elf.content := by
  rcases init_cases keep current nonempty lists.inside with
    ⟨elf, there, same, older⟩ | ⟨result, made, same⟩
  · constructor
    · intro directory
      have unlinked := (isFile_eq_false.mp (compiling.sound.directories _ directory)).2 rfl
      cases unlinked.symm.trans there
    · rw [same]
      refine ⟨elf, there, ?_⟩
      rw [compiling.elf] at there
      have sources_le : ∀ s source, tree.sources s = some source → source.mtime ≤ elf.mtime := by
        intro s source found
        have member := (lists.files s).mpr (by simp [found])
        exact ((current s member).le (older s member)).1 source (compiling.sources ▸ found)
      have project_le : tree.project.mtime ≤ elf.mtime := by
        obtain ⟨s, first⟩ := List.exists_mem_of_ne_nil _ nonempty
        have member : s ∈ listing.files := List.mem_append_left _ first
        rw [← compiling.project]
        exact ((current s member).le (older s member)).2
      apply remembers.current lists there project_le sources_le
      rcases meets.stayed elf there with edited | ⟨b, source, found, later⟩ | stayed
      · exact absurd project_le (Nat.not_le.mpr edited)
      · exact absurd (sources_le b source found) (Nat.not_le.mpr later)
      · exact stayed
  · rw [same] at returned ⊢
    obtain ⟨content, rfl⟩ := Option.isSome_iff_exists.mp returned
    obtain ⟨free, links⟩ := linked_of_result made rfl
    rw [compiling.linked_eq lists] at links
    exact ⟨free, _, rfl, links⟩

/-- A build that returns has found a source in `init/`. -/
theorem bodies_inside (sound : Sound tools tree) (meets : Meets ⟨tree, origin⟩)
    (lists : listing.Lists tree) (returned : (bodies tools keep listing tree).1 = true) :
    listing.init ≠ [] := by
  intro empty
  have raised := (bodies_unhoused sound meets.distinct lists empty
    (fun housed => meets.nonempty lists housed empty) keep).1
  cases returned.symm.trans raised

/-- A build that returns has compiled every source, nothing it writes is in the way of the
rest, and the executable is the current one. -/
theorem bodies_current (sound : Sound tools tree) (remembers : Remembers tools tree origin)
    (meets : Meets ⟨tree, origin⟩) (lists : listing.Lists tree)
    (returned : (bodies tools keep listing tree).1 = true) :
    (∀ s, tree.sources s ≠ none → compiled tools tree s ≠ none) ∧ Clear tree.emptied ∧
      ∃ elf, (bodies tools keep listing tree).2.elf = some elf ∧
        linked tools tree listing = some elf.content := by
  have nonempty := bodies_inside sound meets lists returned
  obtain ⟨libraries, linking⟩ := Action.andThen_returns.mp returned
  have start : Compiling tools tree tree := .refl sound meets.distinct
  have compiling := libraries_keep lists keep tree start
  have current := libraries_upToDate lists start libraries
  rw [bodies, Action.andThen_world libraries]
  obtain ⟨free, executable⟩ := init_current remembers meets lists nonempty compiling current linking
  refine ⟨?_, ?_, executable⟩
  · intro s present
    obtain ⟨object, -, same⟩ := (current s ((lists.files s).mpr present)).compiled
    rw [compiled, compiling.sources, compiling.project, ← compiled] at same
    simp [same]
  · apply Clear.emptied _ compiling.sources
    apply clear_of_built compiling.sound _ free
    intro s present
    exact current s ((lists.files s).mpr (compiling.sources ▸ present))

end Steps
end Sessions

section Sample

/-- What is made says what it was made of. -/
def recording : Toolchain Nat Nat (Nat × Nat) (Nat × Finset (Nat × Nat)) :=
  ⟨fun flags source => some (flags, source), fun flags objects => some (flags, objects)⟩

def commandC : SourceFile := ⟨.init, [], "command"⟩
def initC : SourceFile := ⟨.init, [], "init"⟩

def sample : Tree Nat Nat (Nat × Nat) (Nat × Finset (Nat × Nat)) where
  clock := 0
  sources := fun s => if s ∈ [commandC, initC] then some ⟨s.stem.length, 0⟩ else none
  project := ⟨0, 0⟩
  directories := []
  objects := fun _ => none
  elf := none

def sampleListing : Listing := ⟨[], [commandC, initC]⟩
def shrunkListing : Listing := ⟨[], [commandC]⟩

def sampleBuilt : Tree Nat Nat (Nat × Nat) (Nat × Finset (Nat × Nat)) :=
  (runInit recording true sampleListing sample).2.world

theorem lists_of_init {tree : Tree S F O X} {files : List SourceFile}
    (inside : ∀ s ∈ files, s.dir = .init) (present : ∀ s, tree.sources s ≠ none ↔ s ∈ files) :
    Listing.Lists ⟨[], files⟩ tree := by
  constructor
  · intro s
    rw [present]
    constructor
    · exact nofun
    · rintro ⟨util, member⟩
      cases util.symm.trans (inside s member)
  · intro s
    rw [present]
    exact ⟨fun member => ⟨inside s member, member⟩, And.right⟩

theorem sample_lists : sampleListing.Lists sample :=
  lists_of_init (by decide) fun _ => ite_ne_right_iff.trans (and_iff_left (Option.some_ne_none _))

theorem sample_distinct {tree : Tree Nat Nat (Nat × Nat) (Nat × Finset (Nat × Nat))}
    (among : ∀ s, tree.sources s ≠ none → s ∈ [commandC, initC]) : Distinct tree := by
  have distinct : ∀ a ∈ [commandC, initC], ∀ b ∈ [commandC, initC], outFile a = outFile b → a = b := by
    decide
  exact fun a b a_present b_present => distinct a (among a a_present) b (among b b_present)

theorem sample_meets : Meets ⟨sample, sample⟩ := by
  constructor
  · exact sample_distinct fun s present => (sample_lists.files s).mpr present
  · exact fun _ => ⟨commandC, (sample_lists.init commandC).mp List.mem_cons_self⟩
  · exact nofun

theorem sample_reached : Reachable recording ⟨sample, sample⟩ := by
  apply Reachable.start sample
  · intro s source found
    simp only [sample] at found
    split at found
    · cases found
      exact Nat.le_refl _
    · cases found
  · exact Nat.le_refl _

theorem sampleBuilt_reached : ∃ origin, Reachable recording ⟨sampleBuilt, origin⟩ :=
  ⟨_, .run sample_reached true sampleListing sample_lists sample_meets rfl⟩

theorem sampleBuilt_sources : sampleBuilt.sources = sample.sources := by
  have built := bodies_built sample_reached.invariant.1 sample_meets.distinct sample_lists
    (sample_meets.nonempty sample_lists) true
  rw [← (runInit_eq recording true sampleListing sample).1] at built
  exact built.sources

/-- One source removed, with no trace in the times of the others. -/
def shrunk : Tree Nat Nat (Nat × Nat) (Nat × Finset (Nat × Nat)) := sampleBuilt.remove initC

/-- One source removed after an edit of the other. -/
def edited : Tree Nat Nat (Nat × Nat) (Nat × Finset (Nat × Nat)) :=
  (sampleBuilt.write commandC 8).remove initC

theorem remove_lists {tree : Tree Nat Nat (Nat × Nat) (Nat × Finset (Nat × Nat))}
    (same : ∀ s, tree.sources s ≠ none ↔ sample.sources s ≠ none) :
    shrunkListing.Lists (tree.remove initC) := by
  apply lists_of_init (by decide)
  intro s
  by_cases gone : s = initC
  · subst gone
    simp [Tree.remove, initC, commandC]
  · simp only [Tree.remove, Function.update_of_ne gone, same]
    simp [sample, gone]

theorem shrunk_lists : shrunkListing.Lists shrunk := by
  apply remove_lists
  intro s
  rw [sampleBuilt_sources]

theorem edited_lists : shrunkListing.Lists edited := by
  apply remove_lists
  intro s
  by_cases same : s = commandC
  · subst same
    simp [Tree.write, sample]
  · simp only [Tree.write, Function.update_of_ne same, sampleBuilt_sources]

theorem edited_meets (origin : Tree Nat Nat (Nat × Nat) (Nat × Finset (Nat × Nat))) :
    Meets ⟨edited, origin⟩ := by
  constructor
  · apply sample_distinct
    intro s present
    have member := (edited_lists.files s).mpr present
    exact List.mem_cons.mpr (.inl (List.mem_singleton.mp member))
  · exact fun _ => ⟨commandC, (edited_lists.init commandC).mp List.mem_cons_self⟩
  · intro elf there
    change edited.elf = some elf at there
    have time : edited.elf.map File.mtime = some 3 := rfl
    have found : edited.sources commandC = some ⟨8, 4⟩ := rfl
    rw [there] at time
    have newer : elf.mtime < 4 := Nat.lt_succ_of_le (Option.some.inj time).le
    exact .inr (.inl ⟨commandC, ⟨8, 4⟩, found, newer⟩)

end Sample

/-- A build that has gone through goes through from an empty output directory too, in
whatever order the files are found, and comes to the same executable. -/
theorem incremental_build_current [DecidableEq O] {tools : Toolchain S F O X} {keep : Bool}
    {tree origin : Tree S F O X} {listing : Listing} (reached : Reachable tools ⟨tree, origin⟩)
    (lists : listing.Lists tree) (meets : Meets ⟨tree, origin⟩)
    (ok : (runInit tools keep listing tree).1 = .ok) :
    ∃ elf, (runInit tools keep listing tree).2.world.elf = some elf ∧
      ∀ (keep' : Bool) (listing' : Listing), listing'.Lists tree.emptied →
        (runInit tools keep' listing' tree.emptied).1 = .ok ∧
          (runInit tools keep' listing' tree.emptied).2.world.elf.map File.content =
            some elf.content := by
  obtain ⟨sound, remembers⟩ := reached.invariant
  obtain ⟨world, status⟩ := runInit_eq tools keep listing tree
  obtain ⟨compiles, clear, elf, there, links⟩ :=
    bodies_current sound remembers meets lists (status.mp ok)
  refine ⟨elf, world ▸ there, ?_⟩
  intro keep' listing' lists'
  obtain ⟨world', status'⟩ := runInit_eq tools keep' listing' tree.emptied
  have links' : linked tools tree.emptied listing' = some elf.content := by
    rw [← links]
    exact linked_eq lists' lists rfl rfl
  obtain ⟨s, first⟩ := List.exists_mem_of_ne_nil _ (bodies_inside sound meets lists (status.mp ok))
  have nonempty : listing'.init ≠ [] :=
    List.ne_nil_of_mem ((lists'.init s).mpr ((lists.init s).mp first))
  obtain ⟨returned, same⟩ := bodies_written sound.emptied meets.distinct clear lists' nonempty rfl rfl
    compiles links' keep'
  rw [world', status']
  exact ⟨returned, same⟩

theorem incremental_build_current_edited : ∃ elf,
    (runInit recording true shrunkListing edited).2.world.elf = some elf ∧
      ∀ (keep' : Bool) (listing' : Listing), listing'.Lists edited.emptied →
        (runInit recording keep' listing' edited.emptied).1 = .ok ∧
          (runInit recording keep' listing' edited.emptied).2.world.elf.map File.content =
            some elf.content := by
  obtain ⟨origin, reached⟩ := sampleBuilt_reached
  exact incremental_build_current ((reached.write commandC 8).remove initC) edited_lists
    (edited_meets origin) (by decide +kernel)

theorem removed_source_stays_linked :
    (∃ origin, Reachable recording ⟨shrunk, origin⟩) ∧ shrunkListing.Lists shrunk ∧
      (runInit recording true shrunkListing shrunk).1 = .ok ∧
      (runInit recording true shrunkListing shrunk).2.world.elf.map File.content ≠
        (runInit recording true shrunkListing shrunk.emptied).2.world.elf.map File.content := by
  refine ⟨?_, shrunk_lists, ?_, ?_⟩
  · obtain ⟨origin, reached⟩ := sampleBuilt_reached
    exact ⟨origin, reached.remove initC⟩
  · decide +kernel
  · decide +kernel

end MinLinux.Build.Project
