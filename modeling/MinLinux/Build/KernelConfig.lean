import MinLinux.Build.Traversal

/-! The kernel configuration in the targets of buildscript/targets. Two targets copy
between the saved and the installed config file; others call them for their effect,
which the engine grants them only once a build. -/
namespace MinLinux.Build.KernelConfig

inductive KernelTarget where
  | useSavedConfig
  | saveConfig
  | configure
  | bareKernel
  | kernelHeaders
  | kernel
  | signingKey
  | generateInitramfs
  | kernelHelp
  | clean
  | runEfi
  | kernelSize
  | diffConfigs
  | alpineRootfs
  | helloWorld
  | libUtil
  | libInit
  | init
  | musl
  | dropbear
  | manual
  | help
deriving DecidableEq

/-- The two config files at a moment: when menuconfig starts, when the body of
`configure` is over, or when `kernel` makes its first edit. -/
inductive Moment where
  | menuconfig
  | configured
  | kernelEdits
deriving DecidableEq

structure Observation where
  moment : Moment
  installed : List UInt8
  custom : List UInt8
deriving DecidableEq

structure Configs where
  custom : List UInt8
  installed : List UInt8
  observed : List Observation

/-- What the outside decides: the edits made in menuconfig and by the calls of
scripts/config, and which targets raise, before they touch the two files or after. -/
structure Environment where
  menuconfig : List UInt8 → List UInt8
  scriptsConfig : List UInt8 → List UInt8
  fails : KernelTarget → Bool
  failsLate : KernelTarget → Bool
  dirsFail : KernelTarget → Bool

def Configs.observe (w : Configs) (moment : Moment) : Configs :=
  { w with observed := w.observed ++ [⟨moment, w.installed, w.custom⟩] }

def Configs.edit (w : Configs) (change : List UInt8 → List UInt8) : Configs :=
  { w with installed := change w.installed }

def Configs.copySaved (w : Configs) : Configs := { w with installed := w.custom }

def Configs.save (w : Configs) : Configs := { w with custom := w.installed }

abbrev KernelBody := Body KernelTarget Configs

/-- The rest of a target's work, none of which touches the two files. -/
def work (env : Environment) (t : KernelTarget) (next : KernelBody) : KernelBody :=
  if env.fails t then .raise else next

/-- What a target still does once it has touched the files: copying file times,
printing, building the image. -/
def finish (env : Environment) (t : KernelTarget) : KernelBody :=
  if env.failsLate t then .raise else .done

/-- A directory that is made before the target. -/
def dirs (env : Environment) (t : KernelTarget) : Dependency KernelTarget Configs :=
  .plain fun w => if env.dirsFail t then none else some w

def depends (env : Environment) : KernelTarget → List (Dependency KernelTarget Configs)
  | .configure => [.target .useSavedConfig]
  | .kernelHeaders => [.target .bareKernel, dirs env .kernelHeaders]
  | .kernel => [.target .signingKey, .target .generateInitramfs, .target .kernelHeaders]
  | .signingKey => [dirs env .signingKey]
  | .init => [.target .libUtil, .target .libInit]
  | .manual => [dirs env .manual]
  | _ => []

def body (env : Environment) : KernelTarget → KernelBody
  | .useSavedConfig =>
      work env .useSavedConfig (.act Configs.copySaved fun _ => finish env .useSavedConfig)
  | .saveConfig => work env .saveConfig (.act Configs.save fun _ => finish env .saveConfig)
  | .configure =>
      work env .configure (.act (fun w => (w.observe .menuconfig).edit env.menuconfig) fun _ =>
        .call .saveConfig (.act (fun w => w.observe .configured) fun _ => .done))
  | .bareKernel => .call .useSavedConfig (work env .bareKernel .done)
  | .kernel =>
      .call .useSavedConfig (work env .kernel
        (.act (fun w => (w.observe .kernelEdits).edit env.scriptsConfig) fun _ =>
          finish env .kernel))
  | t => work env t .done

def targets (env : Environment) (t : KernelTarget) : Target KernelTarget Configs :=
  ⟨depends env t, body env t⟩

/-- `availableTargets`, by the name of each function. -/
def availableTargets : List (String × KernelTarget) :=
  [("use_saved_config", .useSavedConfig), ("save_config", .saveConfig), ("configure", .configure),
    ("bare_kernel", .bareKernel), ("kernel_headers", .kernelHeaders), ("kernel", .kernel),
    ("signing_key", .signingKey), ("generate_initramfs", .generateInitramfs),
    ("kernel_help", .kernelHelp), ("clean", .clean), ("run_efi", .runEfi),
    ("kernel_size", .kernelSize), ("diff_configs", .diffConfigs),
    ("alpine_rootfs", .alpineRootfs), ("hello_world", .helloWorld), ("lib_util", .libUtil),
    ("lib_init", .libInit), ("init", .init), ("musl", .musl), ("dropbear", .dropbear),
    ("manual", .manual), ("help", .help)]

def available (name : String) : Option KernelTarget := availableTargets.lookup name

def build (env : Environment) (fuel : Nat) (argv0 : String) (argv : List String)
    (custom installed : List UInt8) : Status × State KernelTarget Configs :=
  main (targets env) available .help fuel argv0 argv ⟨⟨custom, installed, []⟩, [], []⟩

abbrev Building := State KernelTarget Configs

/-- At every moment observed the installed config is the saved one. -/
def Faithful (w : Configs) : Prop := ∀ o ∈ w.observed, o.installed = o.custom

instance : Decidable (Faithful w) := inferInstanceAs (Decidable (∀ o ∈ w.observed, _))

/-- The first `configure` on a command line comes before every `save_config` and
`kernel`. -/
def ConfiguresFirst (argv : List String) : Prop :=
  ∀ before after, argv = before ++ "configure" :: after → "configure" ∉ before →
    "save_config" ∉ before ∧ "kernel" ∉ before

/-- Kept while no exception ends the build: until `kernel` has made its edits, the copy
made by `use_saved_config` is still good. -/
structure Clean (s : Building) : Prop where
  faithful : Faithful s.world
  copied : .kernel ∉ s.calledTargets → .useSavedConfig ∈ s.calledTargets →
    s.world.installed = s.world.custom

/-- A clean build in which none of `others` has been completed. -/
def CleanWithout (others : List KernelTarget) (s : Building) : Prop :=
  Clean s ∧ ∀ t ∈ others, t ∉ s.calledTargets

section Graph
variable {env : Environment}

/-- The call graph, whatever the environment does. -/
def callees : KernelTarget → List KernelTarget
  | .configure => [.useSavedConfig, .saveConfig]
  | .bareKernel => [.useSavedConfig]
  | .kernelHeaders => [.bareKernel]
  | .kernel => [.signingKey, .generateInitramfs, .kernelHeaders, .useSavedConfig]
  | .init => [.libUtil, .libInit]
  | _ => []

theorem not_calls_done {u : KernelTarget} : ¬ (Body.done : KernelBody).Calls u := nofun

theorem not_calls_finish : ¬ (finish env t).Calls u := by
  unfold finish
  split
  · exact nofun
  · exact nofun

theorem calls_work (called : (work env t next).Calls u) : next.Calls u := by
  unfold work at called
  split at called
  · cases called
  · exact called

theorem calls_callees (called : (body env t).Calls u) : u ∈ callees t := by
  cases t with
  | useSavedConfig =>
    cases calls_work called with
    | act called => exact absurd called not_calls_finish
  | saveConfig =>
    cases calls_work called with
    | act called => exact absurd called not_calls_finish
  | configure =>
    cases calls_work called with
    | act called =>
      cases called with
      | here => exact List.mem_cons_of_mem _ List.mem_cons_self
      | next called =>
        cases called with
        | act called => exact absurd called not_calls_done
  | bareKernel =>
    cases called with
    | here => exact List.mem_cons_self
    | next called => exact absurd (calls_work called) not_calls_done
  | kernel =>
    cases called with
    | here => simp [callees]
    | next called =>
      cases calls_work called with
      | act called => exact absurd called not_calls_finish
  | _ => exact absurd (calls_work called) not_calls_done

theorem depends_callees (declared : .target u ∈ depends env t) : u ∈ callees t := by
  cases t <;> simp [depends, dirs] at declared
  case kernel =>
    rcases declared with rfl | rfl | rfl
    all_goals simp [callees]
  all_goals simp [callees, declared]

theorem edge_callees (edge : Edge (targets env) t u) : u ∈ callees t :=
  edge.elim depends_callees calls_callees

/-- Only `configure` calls a target that changes the saved config, and nothing calls
`configure` or `kernel`. -/
theorem callees_apart (outer : t ≠ .configure) :
    ∀ u ∈ callees t, u ≠ .configure ∧ u ≠ .kernel ∧ u ≠ .saveConfig := by
  cases t with
  | configure => exact absurd rfl outer
  | _ => decide

/-- How deep the calls below a target go. -/
def depth : KernelTarget → Nat
  | .kernel => 3
  | .kernelHeaders => 2
  | .bareKernel => 1
  | .configure => 1
  | .init => 1
  | _ => 0

theorem depth_callees (t : KernelTarget) : ∀ u ∈ callees t, depth u < depth t := by
  cases t <;> decide

theorem depth_falls (t u : KernelTarget) (edge : Edge (targets env) t u) : depth u < depth t :=
  depth_callees t u (edge_callees edge)

end Graph

section Steps
variable {env : Environment} {s : Building} {others : List KernelTarget}

theorem plain_quiet (member : .plain run ∈ depends env t) (ran : run w = some w') : w' = w := by
  cases t <;> simp only [depends, dirs, List.mem_cons, List.not_mem_nil, or_false, reduceCtorEq,
    false_or, Dependency.plain.injEq] at member
  all_goals
    subst member
    split at ran
    · cases ran
    · exact (Option.some.inj ran).symm

theorem keeps_work {P : Building → Prop} (keeps : next.Keeps P) : (work env t next).Keeps P := by
  unfold work
  split
  · trivial
  · exact keeps

theorem keeps_finish {P : Building → Prop} : (finish env t).Keeps P := by
  unfold finish
  split
  · trivial
  · trivial

/-- A target that changes the two files once and calls nothing. -/
theorem perform_change {P : Building → Prop} {depend call : KernelTarget → Building → Status × Building}
    (logs : ∀ s e, P s → P (s.log e)) (holds : P s)
    (changed : P { s with world := change s.world })
    (completed : P (({ s with world := change s.world } : Building).log (.start t) |>.complete t)) :
    P (perform depend call ⟨[], work env t (.act change fun _ => finish env t)⟩ t s).2 := by
  simp only [perform, runDepends, andThen, work, finish]
  cases env.fails t with
  | true => exact logs _ _ (logs _ _ holds)
  | false =>
    cases env.failsLate t with
    | true => exact logs _ _ (logs _ (.start t) changed)
    | false => exact completed

/-- What the targets a target depends on keep, all its dependencies keep. -/
theorem runDepends_quiet {P : Building → Prop} {call : KernelTarget → Building → Status × Building}
    (logs : ∀ s e, P s → P (s.log e)) (calls : ∀ u ∈ callees t, ∀ s, P s → P (call u s).2)
    (holds : P s) : P (runDepends call t (depends env t) s).2 := by
  refine runDepends_keeps logs t _ ?_ ?_ holds
  · intro run member s w ran holds
    rw [plain_quiet member ran]
    exact holds
  · intro d declared
    exact calls d (depends_callees declared)

section Aside
variable {P : Building → Prop} (logs : ∀ s e, P s → P (s.log e))
  (early : ∀ t ∈ others, t = .configure ∨ t = .kernel ∨ t = .saveConfig)
  (use : ∀ s, .useSavedConfig ∉ s.calledTargets → P s →
    P { s with world := s.world.copySaved } ∧
    P (({ s with world := s.world.copySaved } : Building).log (.start .useSavedConfig)
      |>.complete .useSavedConfig))
  (save : .saveConfig ∉ others → ∀ s, P s → P { s with world := s.world.save } ∧
    P (({ s with world := s.world.save } : Building).log (.start .saveConfig)
      |>.complete .saveConfig))
  (completes : ∀ t, t ∉ others → t ≠ .useSavedConfig → t ≠ .saveConfig → t ≠ .kernel →
    t ≠ .configure → ∀ s, P s → P (s.complete t))
include logs early use save completes

/-- Calls other than `configure`, `kernel` and the `others` keep what the two copies and
every completion keep. -/
theorem onTarget_aside (notConfigure : t ≠ .configure) (notKernel : t ≠ .kernel)
    (outside : t ∉ others) (holds : P s) : P (onTarget (targets env) fuel origin t s).2 := by
  refine onTarget_keeps logs (fun t => t ≠ .configure ∧ t ≠ .kernel ∧ t ∉ others) ?_
    ⟨notConfigure, notKernel, outside⟩ holds
  intro t depend call ⟨notConfigure, notKernel, outside⟩ depends calls s fresh holds
  have below : ∀ u ∈ callees t, u ≠ .configure ∧ u ≠ .kernel ∧ u ∉ others := by
    intro u member
    obtain ⟨first, second, third⟩ := callees_apart notConfigure u member
    refine ⟨first, second, fun listed => ?_⟩
    rcases early u listed with same | same | same
    · exact first same
    · exact second same
    · exact third same
  by_cases isUse : t = .useSavedConfig
  · subst isUse
    obtain ⟨changed, completed⟩ := use s fresh holds
    exact perform_change logs holds changed completed
  by_cases isSave : t = .saveConfig
  · subst isSave
    obtain ⟨changed, completed⟩ := save outside s holds
    exact perform_change logs holds changed completed
  refine perform_keeps logs ?_ ?_ ?_ ?_ (completes t outside isUse isSave notKernel notConfigure)
    holds
  · intro run member s w ran holds
    rw [plain_quiet member ran]
    exact holds
  · intro d declared
    exact depends d (below d (depends_callees declared))
  · cases t with
    | useSavedConfig => exact absurd rfl isUse
    | saveConfig => exact absurd rfl isSave
    | configure => exact absurd rfl notConfigure
    | kernel => exact absurd rfl notKernel
    | bareKernel => exact keeps_work trivial
    | _ => exact keeps_work trivial
  · intro u called
    exact calls u (below u (calls_callees called))

end Aside

theorem Clean.log (clean : Clean s) (e : Event KernelTarget) : Clean (s.log e) :=
  ⟨clean.faithful, clean.copied⟩

theorem Clean.of_same (faithful : Faithful s.world) (same : s.world.installed = s.world.custom) :
    Clean s := ⟨faithful, fun _ _ => same⟩

/-- Completing a target other than the copy leaves a build clean. -/
theorem Clean.complete (clean : Clean s) (other : t ≠ .useSavedConfig) : Clean (s.complete t) := by
  refine ⟨clean.faithful, ?_⟩
  intro unedited copied
  refine clean.copied (fun edited => unedited (List.mem_append_left _ edited)) ?_
  rcases List.mem_append.mp copied with earlier | now
  · exact earlier
  · exact absurd (List.mem_singleton.mp now).symm other

theorem not_called_complete (before : u ∉ s.calledTargets) (other : u ≠ t) :
    u ∉ (s.complete t).calledTargets := by
  intro done
  rcases List.mem_append.mp done with earlier | now
  · exact before earlier
  · exact other (List.mem_singleton.mp now)

theorem CleanWithout.log (clean : CleanWithout others s) : CleanWithout others (s.log e) :=
  ⟨clean.1.log e, clean.2⟩

/-- Every target but `configure` and `kernel` keeps a build clean. -/
theorem onTarget_clean (early : ∀ t ∈ others, t = .configure ∨ t = .kernel ∨ t = .saveConfig)
    (notConfigure : t ≠ .configure) (notKernel : t ≠ .kernel) (outside : t ∉ others)
    (clean : CleanWithout others s) :
    CleanWithout others (onTarget (targets env) fuel origin t s).2 := by
  refine onTarget_aside (fun s e => CleanWithout.log) early ?_ ?_ ?_ notConfigure notKernel outside
    clean
  · intro s _ clean
    refine ⟨⟨.of_same clean.1.faithful rfl, clean.2⟩, .of_same clean.1.faithful rfl, ?_⟩
    intro u member
    apply not_called_complete (clean.2 u member)
    rintro rfl
    exact absurd (early _ member) (by decide)
  · intro outside s clean
    refine ⟨⟨.of_same clean.1.faithful rfl, clean.2⟩, .of_same clean.1.faithful rfl, ?_⟩
    intro u member
    apply not_called_complete (clean.2 u member)
    rintro rfl
    exact outside member
  · intro t outside notUse _ _ _ s clean
    refine ⟨clean.1.complete notUse, ?_⟩
    intro u member
    apply not_called_complete (clean.2 u member)
    rintro rfl
    exact outside member

/-- How a call may end: with a faithful build, clean unless an exception ended it. -/
def Sound (out : Status × Building) : Prop :=
  Faithful out.2.world ∧ (out.1 = .ok → Clean out.2)

theorem Sound.of_clean (clean : Clean out.2) : Sound out := ⟨clean.faithful, fun _ => clean⟩

theorem andThen_sound {next : Building → Status × Building} (first : Faithful out.2.world)
    (second : out.1 = .ok → Sound (next out.2)) : Sound (andThen out next) := by
  obtain ⟨status, s⟩ := out
  cases status with
  | ok => exact second rfl
  | raised => exact ⟨first, nofun⟩
  | starved => exact ⟨first, nofun⟩

theorem faithful_observe :
    Faithful (w.observe moment) ↔ Faithful w ∧ w.installed = w.custom := by
  constructor
  · intro faithful
    exact ⟨fun o member => faithful o (List.mem_append_left _ member),
      faithful _ (List.mem_append_right _ (List.mem_singleton.mpr rfl))⟩
  · rintro ⟨faithful, same⟩ o member
    rcases List.mem_append.mp member with earlier | now
    · exact faithful o earlier
    · cases List.mem_singleton.mp now
      exact same

/-- The end of a target whose last change of the files is `change`. -/
theorem last_change_sound {call : KernelTarget → Building → Status × Building} (faithful : Faithful s.world)
    (changed : Faithful (change s.world))
    (completed : Clean (({ s with world := change s.world } : Building).complete t)) :
    Sound (andThen (runBody call t (work env t (.act change fun _ => finish env t)) s)
      fun s => (.ok, s.complete t)) := by
  simp only [work, finish]
  cases env.fails t with
  | true => exact ⟨faithful, nofun⟩
  | false =>
    cases env.failsLate t with
    | true => exact ⟨changed, nofun⟩
    | false => exact .of_clean completed

/-- The edits of `kernel` start from the saved config, and afterwards nothing is asked of
the installed one. -/
theorem perform_kernel (clean : CleanWithout [.kernel] s) :
    Sound (perform (onTarget (targets env) fuel (.dependency .kernel))
      (onTarget (targets env) fuel (.body .kernel)) (targets env .kernel) .kernel s) := by
  have aside : ∀ origin u, u ∈ callees .kernel → ∀ s, CleanWithout [.kernel] s →
      CleanWithout [.kernel] (onTarget (targets env) fuel origin u s).2 := by
    intro origin u member s clean
    obtain ⟨notConfigure, notKernel, -⟩ := callees_apart (by decide) u member
    exact onTarget_clean (by decide) notConfigure notKernel (by simpa using notKernel) clean
  have ready : CleanWithout [.kernel] (runDepends (onTarget (targets env) fuel (.dependency .kernel))
      .kernel (depends env .kernel) s).2 :=
    runDepends_quiet (fun s e => CleanWithout.log) (aside _) clean
  refine andThen_sound ready.1.faithful fun _ => ?_
  have reset := aside (.body .kernel) .useSavedConfig (by decide) _ (ready.log (e := .start .kernel))
  rw [targets, body, runBody, andThen_assoc]
  refine andThen_sound reset.1.faithful fun ok => ?_
  have same := reset.1.copied (reset.2 _ (by decide)) (onTarget_completes ok)
  have edited : Faithful (Configs.observe _ .kernelEdits) := faithful_observe.mpr ⟨reset.1.faithful, same⟩
  refine last_change_sound reset.1.faithful edited ⟨edited, ?_⟩
  intro unedited
  exact absurd (List.mem_append_right _ (List.mem_singleton.mpr rfl)) unedited

/-- The first `save_config` of a build: no observation, and the files agree. -/
theorem onTarget_saveConfig (fresh : .saveConfig ∉ s.calledTargets) :
    let out := onTarget (targets env) fuel origin .saveConfig s
    out.2.world.observed = s.world.observed ∧
      (out.1 = .ok → out.2.world.installed = out.2.world.custom) := by
  cases fuel with
  | zero => exact ⟨rfl, by simp [onTarget]⟩
  | succ fuel =>
    rw [onTarget, if_neg fresh]
    simp only [perform, targets, depends, body, runDepends, andThen, work, finish]
    cases env.fails .saveConfig with
    | true => exact ⟨rfl, by simp [runBody]⟩
    | false =>
      cases env.failsLate .saveConfig with
      | true => exact ⟨rfl, by simp [runBody]⟩
      | false => exact ⟨rfl, fun _ => rfl⟩

/-- The end of `configure`, once menuconfig is over. -/
theorem configure_saves (faithful : Faithful s.world) (fresh : .saveConfig ∉ s.calledTargets) :
    Sound (andThen (runBody (onTarget (targets env) fuel (.body .configure)) .configure
      (.call .saveConfig (.act (fun w => w.observe .configured) fun _ => .done)) s)
      fun s => (.ok, s.complete .configure)) := by
  obtain ⟨unseen, saves⟩ := onTarget_saveConfig fresh
  have saved : Faithful (onTarget (targets env) fuel (.body .configure) .saveConfig s).2.world := by
    rw [Faithful, unseen]
    exact faithful
  rw [runBody, andThen_assoc]
  refine andThen_sound saved fun ok => ?_
  have same := saves ok
  have closed : Faithful (Configs.observe _ .configured) := faithful_observe.mpr ⟨saved, same⟩
  exact .of_clean (.of_same closed same)

/-- With neither copy used up, `configure` opens the saved config and saves the edited
one. -/
theorem perform_configure (clean : CleanWithout [.configure, .kernel, .saveConfig] s) :
    Sound (perform (onTarget (targets env) fuel (.dependency .configure))
      (onTarget (targets env) fuel (.body .configure)) (targets env .configure) .configure s) := by
  have reset : CleanWithout [.configure, .kernel, .saveConfig]
      (onTarget (targets env) fuel (.dependency .configure) .useSavedConfig s).2 :=
    onTarget_clean (by decide) (by decide) (by decide) (by decide) clean
  simp only [perform, targets, depends, body, runDepends]
  rw [andThen_assoc]
  refine andThen_sound reset.1.faithful fun ok => ?_
  have same := reset.1.copied (reset.2 _ (by decide)) (onTarget_completes ok)
  have opened : Faithful (Configs.observe _ .menuconfig) := faithful_observe.mpr ⟨reset.1.faithful, same⟩
  rw [andThen, work]
  cases env.fails .configure with
  | true =>
    constructor
    · exact reset.1.faithful
    · rintro ⟨⟩
  | false => exact configure_saves opened (reset.2 _ (by decide))

/-- Once `configure` has been completed, or when it is not asked for, every call leaves
a clean build clean. -/
theorem onTarget_sound (clean : Clean s) (settled : t = .configure → t ∈ s.calledTargets) :
    Sound (onTarget (targets env) fuel origin t s) := by
  cases fuel with
  | zero => exact .of_clean clean
  | succ fuel =>
    by_cases done : t ∈ s.calledTargets
    · rw [onTarget, if_pos done]
      exact .of_clean (clean.log _)
    · by_cases isKernel : t = .kernel
      · subst isKernel
        rw [onTarget, if_neg done]
        have unedited : CleanWithout [.kernel] s := ⟨clean, by simpa using done⟩
        exact perform_kernel unedited.log.log
      · have kept : CleanWithout [] s := ⟨clean, fun _ member => absurd member List.not_mem_nil⟩
        exact .of_clean (onTarget_clean (fun _ member => absurd member List.not_mem_nil)
          (fun same => done (settled same)) isKernel List.not_mem_nil kept).1

theorem onTarget_configure_sound (clean : CleanWithout [.configure, .kernel, .saveConfig] s) :
    Sound (onTarget (targets env) fuel origin .configure s) := by
  cases fuel with
  | zero => exact .of_clean clean.1
  | succ fuel =>
    rw [onTarget, if_neg (clean.2 _ (by decide))]
    exact perform_configure clean.log.log

end Steps

section Names
variable {env : Environment} {s : Building}

theorem available_listed (known : available name = some t) : (name, t) ∈ availableTargets := by
  obtain ⟨before, after, split, -⟩ := List.lookup_eq_some_iff.mp known
  rw [split]
  exact List.mem_append_right _ List.mem_cons_self

theorem available_name (known : available name = some t) :
    (t = .configure ↔ name = "configure") ∧ (t = .kernel ↔ name = "kernel") ∧
      (t = .saveConfig ↔ name = "save_config") := by
  have table : ∀ entry ∈ availableTargets, (entry.2 = .configure ↔ entry.1 = "configure") ∧
      (entry.2 = .kernel ↔ entry.1 = "kernel") ∧
      (entry.2 = .saveConfig ↔ entry.1 = "save_config") := by decide
  exact table _ (available_listed known)

/-- After the first `configure`, or without one, the order of the names is free. -/
theorem runNames_sound (names : List String) (clean : Clean s)
    (settled : "configure" ∈ names → .configure ∈ s.calledTargets) :
    Sound (runNames (targets env) available fuel names s) := by
  induction names generalizing s with
  | nil => exact .of_clean clean
  | cons name rest ih =>
    rw [runNames]
    cases known : available name with
    | none => exact ih (clean.log _) fun member => settled (List.mem_cons_of_mem _ member)
    | some t =>
      have first : Sound (onTarget (targets env) fuel .commandLine t s) := by
        apply onTarget_sound clean
        rintro rfl
        have named := (available_name known).1.mp rfl
        exact settled (named ▸ List.mem_cons_self)
      refine andThen_sound first.1 fun ok => ih (first.2 ok) fun member => ?_
      exact onTarget_kept (settled (List.mem_cons_of_mem _ member))

theorem ConfiguresFirst.tail (first : ConfiguresFirst (name :: rest)) (other : name ≠ "configure") :
    ConfiguresFirst rest := by
  intro before after split fresh
  have outside : "configure" ∉ name :: before := by
    simpa [Ne.symm other] using fresh
  obtain ⟨save, kernel⟩ := first (name :: before) after (by rw [split]; rfl) outside
  exact ⟨fun member => save (List.mem_cons_of_mem _ member),
    fun member => kernel (List.mem_cons_of_mem _ member)⟩

/-- A name that uses up a copy is followed by no `configure`. -/
theorem ConfiguresFirst.last (first : ConfiguresFirst (name :: rest)) (other : name ≠ "configure")
    (uses : name = "save_config" ∨ name = "kernel") : "configure" ∉ rest := by
  intro member
  obtain ⟨before, after, split, fresh⟩ := List.eq_append_cons_of_mem member
  have outside : "configure" ∉ name :: before := by
    simpa [Ne.symm other] using fresh
  obtain ⟨save, kernel⟩ := first (name :: before) after (by rw [split]; rfl) outside
  rcases uses with rfl | rfl
  · exact save List.mem_cons_self
  · exact kernel List.mem_cons_self

theorem runNames_configures_first (names : List String) (first : ConfiguresFirst names)
    (clean : CleanWithout [.configure, .kernel, .saveConfig] s) :
    Sound (runNames (targets env) available fuel names s) := by
  induction names generalizing s with
  | nil => exact .of_clean clean.1
  | cons name rest ih =>
    by_cases isConfigure : name = "configure"
    · subst isConfigure
      have known : available "configure" = some .configure := by decide
      rw [runNames, known]
      have opened : Sound (onTarget (targets env) fuel .commandLine .configure s) :=
        onTarget_configure_sound clean
      exact andThen_sound opened.1 fun ok =>
        runNames_sound rest (opened.2 ok) fun _ => onTarget_completes ok
    by_cases uses : name = "save_config" ∨ name = "kernel"
    · have without := first.last isConfigure uses
      refine runNames_sound _ clean.1 fun member => absurd member ?_
      simpa [Ne.symm isConfigure] using without
    · rw [runNames]
      cases known : available name with
      | none => exact ih (first.tail isConfigure) clean.log
      | some t =>
        obtain ⟨configure, kernel, save⟩ := available_name known
        have kept : CleanWithout [.configure, .kernel, .saveConfig]
            (onTarget (targets env) fuel .commandLine t s).2 := by
          refine onTarget_clean (by decide) ?_ ?_ ?_ clean
          all_goals grind
        exact andThen_sound kept.1.faithful fun _ => ih (first.tail isConfigure) kept

theorem build_faithful (first : ConfiguresFirst argv) (env : Environment) (fuel : Nat)
    (argv0 : String) (custom installed : List UInt8) :
    Faithful (build env fuel argv0 argv custom installed).2.world := by
  have fresh : CleanWithout [.configure, .kernel, .saveConfig]
      (⟨⟨custom, installed, []⟩, [], []⟩ : Building) :=
    ⟨⟨nofun, nofun⟩, fun _ _ => List.not_mem_nil⟩
  have named : Sound (runNames (targets env) available fuel argv _) :=
    runNames_configures_first argv first fresh
  refine (andThen_sound named.1 fun ok => ?_).1
  split
  · exact onTarget_sound ((named.2 ok).log _) nofun
  · exact .of_clean (named.2 ok)

end Names
end MinLinux.Build.KernelConfig
