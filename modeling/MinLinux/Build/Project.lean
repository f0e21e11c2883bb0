import Mathlib.Data.Finset.Dedup
import Mathlib.Data.List.Infix
import MinLinux.Action
import MinLinux.Build.Rules

/-! The targets of buildscript/targets/project.py that lead to the `/init` program. The
tree holds the sources and what is below the output directory; compiling and linking
are parameters. -/
namespace MinLinux.Build.Project

inductive SourceDir where
  | init
  | util
deriving DecidableEq

def SourceDir.name : SourceDir → String
  | .init => "init"
  | .util => "util"

/-- A source file in one of the directories or below; its name is `stem` with `.c` behind
it. -/
structure SourceFile where
  dir : SourceDir
  parents : List String
  stem : String
deriving DecidableEq

abbrev Path := List String

def outputBin : Path := ["build", "bin"]
def outputInitElf : Path := outputBin ++ ["init", "init"]

/-- `with_suffix('.o')`: to pathlib a name with nothing in front of its only dot has no
suffix. -/
def objectName (stem : String) : String := if stem = "" then ".c.o" else stem ++ ".o"

def outFile (input : SourceFile) : Path :=
  outputBin ++ input.dir.name :: (input.parents ++ [objectName input.stem])

structure File (α : Type) where
  content : α
  mtime : Nat
deriving DecidableEq

/-- `clock` is the time of the last write. -/
structure Tree (S F O X : Type) where
  clock : Nat
  sources : SourceFile → Option (File S)
  project : File F
  directories : List Path
  objects : Path → Option (File O)
  elf : Option (File X)

/-- What gcc makes of a source, and of the contents of the objects, under the flags that
project.py gives it; `none` is an exit status other than 0. -/
structure Toolchain (S F O X : Type) where
  compile : F → S → Option O
  link : F → Finset O → Option X

/-- The times are those of the destination and of the sources, `none` where there is no
file. A source that is missing raises, unless an earlier one is newer. -/
def isAnyNewer : Option Nat → List (Option Nat) → Option Bool
  | none, _ => some true
  | some _, [] => some false
  | some _, none :: _ => none
  | some dstmtime, some srcmtime :: rest =>
      if dstmtime < srcmtime then some true else isAnyNewer (some dstmtime) rest

/-- The output of gcc after a run of it; a run that fails keeps what was there or removes
it. -/
def written (keep : Bool) (time : Nat) (old : Option (File α)) : Option α → Option (File α)
  | some content => some ⟨content, time⟩
  | none => if keep then old else none

section Targets
variable {S F O X : Type} [DecidableEq O]

def Tree.isFile (tree : Tree S F O X) (path : Path) : Bool :=
  (tree.objects path).isSome || path == outputInitElf && tree.elf.isSome

/-- `mkdir` with `parents` and `exist_ok`: it raises where a file is in the way. -/
def mkdir (path : Path) : Action (Tree S F O X) := fun tree =>
  if path.inits.any tree.isFile then (false, tree)
  else (true, { tree with directories := path.inits ++ tree.directories })

/-- What `gcc_c` does once the directory is there. The time of a directory that stands
where the object belongs is not kept: gcc fails there. -/
def compile (tools : Toolchain S F O X) (keep : Bool) (input : SourceFile) :
    Action (Tree S F O X) := fun tree =>
  let outfile := outFile input
  match tree.sources input with
  | none => (false, tree)
  | some source =>
    match isAnyNewer ((tree.objects outfile).map File.mtime)
      [some source.mtime, some tree.project.mtime] with
    | none => (false, tree)
    | some false => (true, tree)
    | some true =>
      let result := if outfile ∈ tree.directories then none
        else tools.compile tree.project.content source.content
      (result.isSome, { tree with
        clock := tree.clock + 1
        objects := Function.update tree.objects outfile
          (written keep (tree.clock + 1) (tree.objects outfile) result) })

def gccC (tools : Toolchain S F O X) (keep : Bool) (input : SourceFile) :
    Action (Tree S F O X) :=
  (mkdir (outFile input).dropLast).andThen (compile tools keep input)

/-- What `c_files` returns for the two directories, in whatever order. -/
structure Listing where
  util : List SourceFile
  init : List SourceFile

def Listing.files (listing : Listing) : List SourceFile := listing.init ++ listing.util

def libUtil (tools : Toolchain S F O X) (keep : Bool) (listing : Listing) :
    Action (Tree S F O X) := .each (gccC tools keep) listing.util

def libInit (tools : Toolchain S F O X) (keep : Bool) (listing : Listing) :
    Action (Tree S F O X) := .each (gccC tools keep) listing.init

/-- The executable is written only into a directory that is there, and not in place of
one. -/
def init (tools : Toolchain S F O X) (keep : Bool) (listing : Listing) :
    Action (Tree S F O X) := fun tree =>
  let dependencies := listing.files.map outFile
  match isAnyNewer (tree.elf.map File.mtime)
    (dependencies.map fun path => (tree.objects path).map File.mtime) with
  | none => (false, tree)
  | some false => (true, tree)
  | some true =>
    let result := if outputInitElf.dropLast ∈ tree.directories ∧ outputInitElf ∉ tree.directories
      then (dependencies.mapM fun path => (tree.objects path).map File.content).bind
        fun objects => tools.link tree.project.content objects.toFinset
      else none
    (result.isSome, { tree with
      clock := tree.clock + 1
      elf := written keep (tree.clock + 1) tree.elf result })

inductive ProjectTarget where
  | libUtil
  | libInit
  | init
deriving DecidableEq

/-- A body that is one action. -/
def bodyOf (action : Action W) : Body T W :=
  .act id fun w => .act (fun _ => (action w).2) fun _ => if (action w).1 then .done else .raise

/-- The targets of one build. -/
def targets (tools : Toolchain S F O X) (keep : Bool) (listing : Listing) :
    ProjectTarget → Target ProjectTarget (Tree S F O X)
  | .libUtil => ⟨[], bodyOf (libUtil tools keep listing)⟩
  | .libInit => ⟨[], bodyOf (libInit tools keep listing)⟩
  | .init => ⟨[.target .libUtil, .target .libInit], bodyOf (init tools keep listing)⟩

/-- A call of the target `init` in a process of its own. -/
def runInit (tools : Toolchain S F O X) (keep : Bool) (listing : Listing) (tree : Tree S F O X) :
    Status × State ProjectTarget (Tree S F O X) :=
  onTarget (targets tools keep listing) 2 .commandLine .init ⟨tree, [], []⟩

end Targets

section Engine
variable {T W : Type}

theorem runBody_bodyOf (call : T → State T W → Status × State T W) (t : T) (action : Action W)
    (s : State T W) :
    runBody call t (bodyOf action) s =
      if (action s.world).1 then (.ok, { s with world := (action s.world).2 })
      else (.raised, { s with world := (action s.world).2 }.log (.raise t)) := by
  have unfolded : runBody call t (bodyOf action) s =
      runBody call t (if (action s.world).1 then .done else .raise)
        { s with world := (action s.world).2 } := rfl
  rw [unfolded]
  split
  · rfl
  · rfl

/-- A target that depends on nothing does what its body does. -/
theorem onTarget_leaf [DecidableEq T] {targets : T → Target T W} {action : Action W}
    (leaf : targets t = ⟨[], bodyOf action⟩) (fresh : t ∉ s.calledTargets) (fuel : Nat)
    (origin : Origin T) :
    ∃ trace, onTarget targets (fuel + 1) origin t s =
      if (action s.world).1 then (.ok, ⟨(action s.world).2, s.calledTargets ++ [t], trace⟩)
      else (.raised, ⟨(action s.world).2, s.calledTargets, trace⟩) := by
  rw [onTarget, if_neg fresh, leaf, perform, runDepends, andThen_of_ok rfl, runBody_bodyOf]
  cases returned : (action s.world).1 with
  | true =>
    simp only [State.log, returned]
    exact ⟨_, rfl⟩
  | false =>
    simp only [State.log, returned]
    exact ⟨_, rfl⟩

/-- The bodies in the order of the dependencies. -/
def bodies {S F O X : Type} [DecidableEq O] (tools : Toolchain S F O X) (keep : Bool)
    (listing : Listing) : Action (Tree S F O X) :=
  ((libUtil tools keep listing).andThen (libInit tools keep listing)).andThen
    (init tools keep listing)

/-- The engine runs the three bodies one after the other, up to the first that raises. -/
theorem runInit_eq {S F O X : Type} [DecidableEq O] (tools : Toolchain S F O X) (keep : Bool)
    (listing : Listing) (tree : Tree S F O X) :
    (runInit tools keep listing tree).2.world = (bodies tools keep listing tree).2 ∧
      ((runInit tools keep listing tree).1 = .ok ↔ (bodies tools keep listing tree).1 = true) := by
  have leaf : ∀ t action s, targets tools keep listing t = ⟨[], bodyOf action⟩ →
      t ∉ s.calledTargets → ∃ trace,
        onTarget (targets tools keep listing) 1 (.dependency .init) t s =
          if (action s.world).1 then (.ok, ⟨(action s.world).2, s.calledTargets ++ [t], trace⟩)
          else (.raised, ⟨(action s.world).2, s.calledTargets, trace⟩) :=
    fun _ _ _ same fresh => onTarget_leaf same fresh 0 _
  obtain ⟨first, util⟩ := leaf .libUtil _ ⟨tree, [], [.call .commandLine .init, .enter .init]⟩ rfl
    List.not_mem_nil
  have start : runInit tools keep listing tree =
      andThen (andThen (onTarget (targets tools keep listing) 1 (.dependency .init) .libUtil
          ⟨tree, [], [.call .commandLine .init, .enter .init]⟩)
        fun s => andThen (onTarget (targets tools keep listing) 1 (.dependency .init) .libInit s)
          fun s => (.ok, s))
        fun s => andThen (runBody (onTarget (targets tools keep listing) 1 (.body .init)) .init
          (bodyOf (init tools keep listing)) (s.log (.start .init))) fun s => (.ok, s.complete .init) :=
    rfl
  rw [start, util]
  cases utilOk : (libUtil tools keep listing tree).1 with
  | false => simp [bodies, andThen, Action.andThen, utilOk]
  | true =>
    obtain ⟨second, lib⟩ := leaf .libInit _ ⟨(libUtil tools keep listing tree).2, [.libUtil], first⟩
      rfl (show ProjectTarget.libInit ∉ [ProjectTarget.libUtil] by decide)
    simp only [if_true, andThen, List.nil_append, lib]
    cases initOk : (libInit tools keep listing (libUtil tools keep listing tree).2).1 with
    | false => simp [bodies, Action.andThen, utilOk, initOk]
    | true =>
      simp only [if_true, runBody_bodyOf, State.log, bodies, Action.andThen, utilOk, initOk]
      cases elfOk : (init tools keep listing
          (libInit tools keep listing (libUtil tools keep listing tree).2).2).1 with
      | false => simp
      | true => simp [State.complete]

end Engine
end MinLinux.Build.Project
