import MinLinux.Build.KernelConfig

/-! Which orders of targets lose a kernel config: exactly those in which `save_config`
or `kernel` is named before the first `configure`. Either uses up a copy that
`configure` relies on. -/
namespace MinLinux.Build.KernelConfig

/-- Nothing raises, and every edit changes the config. -/
structure Effective (env : Environment) : Prop where
  menuconfig : ∀ config, env.menuconfig config ≠ config
  scriptsConfig : ∀ config, env.scriptsConfig config ≠ config
  fails : ∀ t, env.fails t = false
  failsLate : ∀ t, env.failsLate t = false
  dirsFail : ∀ t, env.dirsFail t = false

/-- Edits that add an option. -/
def appending : Environment :=
  ⟨(2 :: ·), (3 :: ·), fun _ => false, fun _ => false, fun _ => false⟩

theorem appending_effective : Effective appending :=
  ⟨fun _ => List.cons_ne_self _ _, fun _ => List.cons_ne_self _ _, fun _ => rfl, fun _ => rfl,
    fun _ => rfl⟩

section Steps
variable {env : Environment} {s : Building} {b : Prop}

theorem Effective.work (effective : Effective env) (t : KernelTarget) (next : KernelBody) :
    work env t next = next := by
  rw [KernelConfig.work, effective.fails, if_neg Bool.false_ne_true]

theorem Effective.finish (effective : Effective env) (t : KernelTarget) : finish env t = .done := by
  rw [KernelConfig.finish, effective.failsLate, if_neg Bool.false_ne_true]

theorem Effective.calm (effective : Effective env) (t : KernelTarget) : (targets env t).Calm := by
  constructor
  · intro run member w
    cases t <;> simp only [targets, depends, dirs, effective.dirsFail, List.mem_cons,
      List.not_mem_nil, or_false, reduceCtorEq, false_or, Dependency.plain.injEq] at member
    all_goals
      subst member
      exact Option.some_ne_none _
  · rw [targets]
    cases t <;> simp only [body, effective.work, effective.finish, Body.Calm, implies_true]

theorem Effective.returns (effective : Effective env) (enough : 4 ≤ fuel) (t : KernelTarget) :
    (onTarget (targets env) fuel origin t s).1 = .ok := by
  apply onTarget_calm depth depth_falls effective.calm
  cases t <;> simp only [depth] <;> omega

/-- An observation that went wrong is never forgotten. -/
theorem onTarget_unfaithful (lost : ¬ Faithful s.world) :
    ¬ Faithful (onTarget (targets env) fuel origin t s).2.world := by
  refine onTarget_keeps (P := fun s => ¬ Faithful s.world) (fun _ _ => id) (fun _ => True) ?_
    trivial lost
  intro t depend call _ depends calls s _ lost
  refine perform_keeps (fun _ _ => id) ?_ (fun d _ => depends d trivial) ?_
    (fun u _ => calls u trivial) (fun _ => id) lost
  · intro run member s w ran lost
    rw [plain_quiet member ran]
    exact lost
  · have observed : ∀ (moment : Moment) (s : Building), ¬ Faithful s.world →
        ¬ Faithful (s.world.observe moment) :=
      fun moment s lost faithful => lost (faithful_observe.mp faithful).1
    cases t with
    | useSavedConfig => exact keeps_work ⟨fun _ => id, fun _ => keeps_finish⟩
    | saveConfig => exact keeps_work ⟨fun _ => id, fun _ => keeps_finish⟩
    | configure => exact keeps_work ⟨observed _, fun _ => ⟨observed _, fun _ => trivial⟩⟩
    | kernel => exact keeps_work ⟨observed _, fun _ => keeps_finish⟩
    | bareKernel => exact keeps_work trivial
    | _ => exact keeps_work trivial

/-- The next `configure` cannot do its work: an observation is wrong already, the save
is used up, or the reset is used up and the installed config edited. -/
def Spoilt (s : Building) : Prop :=
  ¬ Faithful s.world ∨ .saveConfig ∈ s.calledTargets ∨
    (.useSavedConfig ∈ s.calledTargets ∧ s.world.installed ≠ s.world.custom)

theorem Spoilt.complete (spoilt : Spoilt s) : Spoilt (s.complete t) := by
  rcases spoilt with lost | saved | ⟨copied, edited⟩
  · exact .inl lost
  · exact .inr (.inl (List.mem_append_left _ saved))
  · exact .inr (.inr ⟨List.mem_append_left _ copied, edited⟩)

/-- An edit that is observed spoils a build whose reset is used up. -/
theorem Spoilt.edit (copied : .useSavedConfig ∈ s.calledTargets) (changes : ∀ x, change x ≠ x) :
    Spoilt { s with world := (s.world.observe moment).edit change } := by
  by_cases agree : s.world.installed = s.world.custom
  · refine .inr (.inr ⟨copied, ?_⟩)
    change change s.world.installed ≠ s.world.custom
    rw [← agree]
    exact changes _
  · exact .inl fun faithful => agree (faithful_observe.mp faithful).2

/-- Before the first `configure`: spoilt once `kernel` is completed, or from `b` on. -/
structure Waiting (b : Prop) (s : Building) : Prop where
  configure : .configure ∉ s.calledTargets
  spoilt : b ∨ .kernel ∈ s.calledTargets → Spoilt s

theorem Waiting.log (waiting : Waiting b s) : Waiting b (s.log e) :=
  ⟨waiting.configure, waiting.spoilt⟩

theorem Waiting.weaken (waiting : Waiting b s) (weaker : c → b) : Waiting c s :=
  ⟨waiting.configure, fun why => waiting.spoilt (why.imp_left weaker)⟩

theorem Waiting.complete (waiting : Waiting b s) (notConfigure : t ≠ .configure)
    (notKernel : t ≠ .kernel) : Waiting b (s.complete t) := by
  refine ⟨not_called_complete waiting.configure notConfigure.symm, ?_⟩
  intro why
  refine (waiting.spoilt (why.imp_right fun edited => ?_)).complete
  rcases List.mem_append.mp edited with earlier | now
  · exact earlier
  · exact absurd (List.mem_singleton.mp now).symm notKernel

theorem onTarget_waiting_aside (notConfigure : t ≠ .configure) (notKernel : t ≠ .kernel)
    (notSave : t ≠ .saveConfig) (waiting : Waiting b s) :
    Waiting b (onTarget (targets env) fuel origin t s).2 := by
  have early : ∀ t ∈ [KernelTarget.saveConfig], t = .configure ∨ t = .kernel ∨ t = .saveConfig := by
    decide
  refine onTarget_aside (fun s e => Waiting.log) early ?_ (absurd List.mem_cons_self) ?_
    notConfigure notKernel (by simpa using notSave) waiting
  · intro s fresh waiting
    have copied : Waiting b { s with world := s.world.copySaved } := by
      refine ⟨waiting.configure, fun why => ?_⟩
      rcases waiting.spoilt why with lost | saved | ⟨done, -⟩
      · exact .inl lost
      · exact .inr (.inl saved)
      · exact absurd done fresh
    exact ⟨copied, copied.log.complete (by decide) (by decide)⟩
  · intro t _ _ _ notKernel notConfigure s waiting
    exact waiting.complete notConfigure notKernel

section Effective
variable (effective : Effective env)
include effective

theorem onTarget_save_spoils (waiting : Waiting b s) (enough : 4 ≤ fuel) :
    Waiting True (onTarget (targets env) fuel origin .saveConfig s).2 := by
  have done : .saveConfig ∈ (onTarget (targets env) fuel origin .saveConfig s).2.calledTargets :=
    onTarget_completes (effective.returns enough _)
  refine ⟨?_, fun _ => .inr (.inl done)⟩
  obtain ⟨fuel, rfl⟩ : ∃ deep, fuel = deep + 1 := ⟨fuel - 1, by omega⟩
  rw [onTarget]
  split
  · exact waiting.configure
  · simp only [perform, targets, depends, body, runDepends, andThen, effective.work,
      effective.finish]
    exact not_called_complete waiting.configure (by decide)

/-- `kernel` edits the config it has just copied, or finds it edited already. -/
theorem perform_kernel_spoils (waiting : Waiting b s)
    (ok : (perform (onTarget (targets env) fuel (.dependency .kernel))
      (onTarget (targets env) fuel (.body .kernel)) (targets env .kernel) .kernel s).1 = .ok) :
    Waiting True (perform (onTarget (targets env) fuel (.dependency .kernel))
      (onTarget (targets env) fuel (.body .kernel)) (targets env .kernel) .kernel s).2 := by
  have aside : ∀ origin u, u ∈ callees .kernel → ∀ s, Waiting b s →
      Waiting b (onTarget (targets env) fuel origin u s).2 := by
    intro origin u member s waiting
    obtain ⟨notConfigure, notKernel, notSave⟩ := callees_apart (by decide) u member
    exact onTarget_waiting_aside notConfigure notKernel notSave waiting
  have ready : Waiting b (runDepends (onTarget (targets env) fuel (.dependency .kernel)) .kernel
      (depends env .kernel) s).2 :=
    runDepends_quiet (fun s e => Waiting.log) (aside _) waiting
  simp only [perform, targets, body, effective.work, effective.finish, runBody,
    andThen_assoc] at ok ⊢
  obtain ⟨-, same⟩ := andThen_ok ok
  rw [same] at ok ⊢
  obtain ⟨returned, same⟩ := andThen_ok ok
  rw [same]
  have copied := onTarget_completes returned
  have reset := aside (.body .kernel) .useSavedConfig (by decide) _ (ready.log (e := .start .kernel))
  exact ⟨not_called_complete reset.configure (by decide), fun _ =>
    (Spoilt.edit copied effective.scriptsConfig).complete⟩

theorem onTarget_kernel_spoils (waiting : Waiting b s) (enough : 4 ≤ fuel) :
    Waiting True (onTarget (targets env) fuel origin .kernel s).2 := by
  have ok : (onTarget (targets env) fuel origin .kernel s).1 = .ok := effective.returns enough _
  obtain ⟨fuel, rfl⟩ : ∃ deep, fuel = deep + 1 := ⟨fuel - 1, by omega⟩
  rw [onTarget] at ok ⊢
  by_cases done : .kernel ∈ s.calledTargets
  · rw [if_pos done]
    exact ⟨waiting.configure, fun _ => waiting.spoilt (.inr done)⟩
  · rw [if_neg done] at ok ⊢
    exact perform_kernel_spoils effective waiting.log.log ok

theorem onTarget_waiting (waiting : Waiting b s) (enough : 4 ≤ fuel) (notConfigure : t ≠ .configure) :
    Waiting (b ∨ t = .saveConfig ∨ t = .kernel) (onTarget (targets env) fuel origin t s).2 := by
  by_cases isSave : t = .saveConfig
  · subst isSave
    exact (onTarget_save_spoils effective waiting enough).weaken fun _ => trivial
  by_cases isKernel : t = .kernel
  · subst isKernel
    exact (onTarget_kernel_spoils effective waiting enough).weaken fun _ => trivial
  · refine (onTarget_waiting_aside notConfigure isKernel isSave waiting).weaken ?_
    rintro (before | now | now)
    · exact before
    · exact absurd now isSave
    · exact absurd now isKernel

/-- On a spoilt build `configure` opens a config that is not the saved one, or does not
save what was edited. -/
theorem perform_configure_unfaithful (waiting : Waiting True s)
    (ok : (perform (onTarget (targets env) fuel (.dependency .configure))
      (onTarget (targets env) fuel (.body .configure)) (targets env .configure) .configure s).1 = .ok) :
    ¬ Faithful (perform (onTarget (targets env) fuel (.dependency .configure))
      (onTarget (targets env) fuel (.body .configure)) (targets env .configure)
      .configure s).2.world := by
  have reset : Waiting True
      (onTarget (targets env) fuel (.dependency .configure) .useSavedConfig s).2 :=
    onTarget_waiting_aside (by decide) (by decide) (by decide) waiting
  simp only [perform, targets, depends, body, effective.work, runDepends, runBody,
    andThen_assoc] at ok ⊢
  obtain ⟨-, same⟩ := andThen_ok ok
  rw [same] at ok ⊢
  rw [andThen] at ok ⊢
  obtain ⟨-, same⟩ := andThen_ok ok
  rw [same]
  intro faithful
  obtain ⟨saved, agree⟩ := faithful_observe.mp faithful
  have opened := not_imp_not.mp onTarget_unfaithful saved
  obtain ⟨before, same⟩ := faithful_observe.mp opened
  rcases reset.spoilt (.inl trivial) with lost | used | ⟨-, edited⟩
  · exact lost before
  · rw [onTarget_again] at agree
    · exact effective.menuconfig _ (agree.trans same.symm)
    · exact used
  · exact edited same

theorem onTarget_configure_unfaithful (waiting : Waiting True s) (enough : 4 ≤ fuel) :
    ¬ Faithful (onTarget (targets env) fuel origin .configure s).2.world := by
  have ok : (onTarget (targets env) fuel origin .configure s).1 = .ok := effective.returns enough _
  obtain ⟨fuel, rfl⟩ : ∃ deep, fuel = deep + 1 := ⟨fuel - 1, by omega⟩
  rw [onTarget, if_neg waiting.configure] at ok ⊢
  exact perform_configure_unfaithful effective waiting.log.log ok

end Effective
end Steps

section Names
variable {env : Environment} {s : Building} {b : Prop} (effective : Effective env)
include effective

theorem runNames_waiting (enough : 4 ≤ fuel) (names : List String) (without : "configure" ∉ names)
    (waiting : Waiting b s) :
    (runNames (targets env) available fuel names s).1 = .ok ∧
      Waiting (b ∨ "save_config" ∈ names ∨ "kernel" ∈ names)
        (runNames (targets env) available fuel names s).2 := by
  induction names generalizing s b with
  | nil => exact ⟨rfl, waiting.weaken (by simp)⟩
  | cons name rest ih =>
    obtain ⟨other, later⟩ := not_or.mp (mt List.mem_cons.mpr without)
    rw [runNames]
    cases known : available name with
    | none =>
      obtain ⟨ok, waiting⟩ := ih later waiting.log
      refine ⟨ok, waiting.weaken ?_⟩
      have unlisted : available "save_config" ≠ none ∧ available "kernel" ≠ none := by decide
      grind
    | some t =>
      obtain ⟨configure, kernel, save⟩ := available_name known
      have called : (onTarget (targets env) fuel .commandLine t s).1 = .ok :=
        effective.returns enough t
      have first : Waiting (b ∨ t = .saveConfig ∨ t = .kernel)
          (onTarget (targets env) fuel .commandLine t s).2 :=
        onTarget_waiting effective waiting enough fun same => other (configure.mp same).symm
      obtain ⟨ok, waiting⟩ := ih later first
      dsimp only
      rw [andThen_of_ok called]
      refine ⟨ok, waiting.weaken ?_⟩
      grind

/-- From a spoilt build on, a command line with a `configure` goes wrong. -/
theorem runNames_unfaithful (enough : 4 ≤ fuel) (names : List String) (waiting : Waiting True s) :
    ¬ Faithful (runNames (targets env) available fuel ("configure" :: names) s).2.world := by
  have known : available "configure" = some .configure := by decide
  have opened : ¬ Faithful (onTarget (targets env) fuel .commandLine .configure s).2.world :=
    onTarget_configure_unfaithful effective waiting enough
  rw [runNames, known]
  exact andThen_keeps (P := fun s => ¬ Faithful s.world) opened fun _ =>
    runNames_keeps (P := fun s => ¬ Faithful s.world) (fun _ _ => id)
      (fun _ _ => onTarget_unfaithful) names opened

theorem build_unfaithful (enough : 4 ≤ fuel) (argv0 : String) (custom installed : List UInt8)
    (broken : ¬ ConfiguresFirst argv) :
    ¬ Faithful (build env fuel argv0 argv custom installed).2.world := by
  simp only [ConfiguresFirst, not_forall] at broken
  obtain ⟨before, after, rfl, fresh, used⟩ := broken
  have start : Waiting False (⟨⟨custom, installed, []⟩, [], []⟩ : Building) := ⟨nofun, nofun⟩
  obtain ⟨ok, waiting⟩ := runNames_waiting effective enough before fresh start
  have named : ¬ Faithful (runNames (targets env) available fuel (before ++ "configure" :: after)
      ⟨⟨custom, installed, []⟩, [], []⟩).2.world := by
    rw [runNames_append, andThen_of_ok ok]
    refine runNames_unfaithful effective enough after (waiting.weaken fun _ => .inr ?_)
    by_contra neither
    exact used (not_or.mp neither)
  refine andThen_keeps (P := fun s => ¬ Faithful s.world) named fun _ => ?_
  rw [if_neg (by simp)]
  exact named

end Names

/-- Whatever the edits, failures and initial files: the installed config is the saved
one whenever menuconfig starts, `configure` is over or `kernel` makes its edits, if and
only if neither `save_config` nor `kernel` is named before the first `configure`. Where
edits are real and nothing fails, this holds of each single build. -/
theorem config_kept_iff (enough : 4 ≤ fuel) (argv0 : String) (argv : List String) :
    ((∀ env custom installed, Faithful (build env fuel argv0 argv custom installed).2.world) ↔
      ConfiguresFirst argv) ∧
    ∀ env, Effective env → ∀ custom installed,
      (Faithful (build env fuel argv0 argv custom installed).2.world ↔ ConfiguresFirst argv) := by
  have single : ∀ env, Effective env → ∀ custom installed,
      (Faithful (build env fuel argv0 argv custom installed).2.world ↔ ConfiguresFirst argv) := by
    intro env effective custom installed
    constructor
    · intro faithful
      by_contra broken
      exact build_unfaithful effective enough argv0 custom installed broken faithful
    · intro first
      exact build_faithful first env fuel argv0 custom installed
  refine ⟨?_, single⟩
  constructor
  · intro faithful
    exact (single appending appending_effective [] []).mp (faithful appending [] [])
  · intro first env custom installed
    exact build_faithful first env fuel argv0 custom installed

theorem config_kept_in_order :
    ConfiguresFirst ["configure", "kernel"] ∧
    Faithful (build appending 4 "build.py" ["configure", "kernel"] [0] [1]).2.world ∧
    (build appending 4 "build.py" ["configure", "kernel"] [0] [1]).2.world.observed.length = 3 := by
  have first : ConfiguresFirst ["configure", "kernel"] := by
    refine (config_kept_iff (Nat.le_refl 4) "build.py" _).2 appending appending_effective [0] [1]
      |>.mp ?_
    decide
  have kept := (config_kept_iff (Nat.le_refl 4) "build.py" ["configure", "kernel"]).1.mpr first
  exact ⟨first, kept appending [0] [1], by decide⟩

/-- After `save_config` the edits made in menuconfig are not saved; after `kernel` its
edits end up in the saved config. -/
theorem config_lost_out_of_order :
    ¬ Faithful (build appending 4 "build.py" ["save_config", "configure"] [0] [1]).2.world ∧
    ¬ Faithful (build appending 4 "build.py" ["kernel", "configure"] [0] [1]).2.world ∧
    (build appending 4 "build.py" ["kernel", "configure"] [0] [1]).2.world.custom = [2, 3, 0] := by
  decide

end MinLinux.Build.KernelConfig
