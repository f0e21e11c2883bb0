import Mathlib.Data.List.Basic

/-! The build targets of buildscript/util/target.py and the driver in build.py. A
target is a function decorated with `requires`; calling it runs what it depends on and
then its body, unless its body has already completed in this build. -/
namespace MinLinux.Build

/-- The body of a target, as far as the engine can see it: it changes the world, calls
other targets and may raise. No body catches what a target it calls raises. -/
inductive Body (T W : Type) where
  | done
  | raise
  | call (t : T) (next : Body T W)
  | act (change : W → W) (next : W → Body T W)

/-- What `requires` lists: a decorated target, or a plain function such as `dirs`
makes, which may raise. -/
inductive Dependency (T W : Type) where
  | target (t : T)
  | plain (run : W → Option W)

structure Target (T W : Type) where
  depends : List (Dependency T W)
  body : Body T W

/-- Where a target is called from. -/
inductive Origin (T : Type) where
  | commandLine
  | dependency (t : T)
  | body (t : T)
deriving DecidableEq

/-- What happens in a build: `enter` is a call that finds the target not yet
completed, `raise` an exception raised on behalf of a target, by its body or by a plain
function it depends on. -/
inductive Event (T : Type) where
  | call (origin : Origin T) (t : T)
  | enter (t : T)
  | start (t : T)
  | finish (t : T)
  | raise (t : T)
  | print (text : String)
deriving DecidableEq

structure State (T W : Type) where
  world : W
  calledTargets : List T
  trace : List (Event T)

/-- How a call ends; `starved` is a recursion deeper than the given fuel. -/
inductive Status where
  | ok
  | raised
  | starved
deriving DecidableEq

variable {T W : Type}

def State.log (s : State T W) (e : Event T) : State T W := { s with trace := s.trace ++ [e] }

/-- Continues after a call that returned; any other ending is passed on. -/
def andThen (out : Status × State T W) (next : State T W → Status × State T W) :
    Status × State T W :=
  match out with
  | (.ok, s) => next s
  | failed => failed

def runDepends (call : T → State T W → Status × State T W) (t : T) :
    List (Dependency T W) → State T W → Status × State T W
  | [], s => (.ok, s)
  | .target d :: rest, s => andThen (call d s) (runDepends call t rest)
  | .plain run :: rest, s =>
      match run s.world with
      | some world => runDepends call t rest { s with world := world }
      | none => (.raised, s.log (.raise t))

def runBody (call : T → State T W → Status × State T W) (t : T) :
    Body T W → State T W → Status × State T W
  | .done, s => (.ok, s)
  | .raise, s => (.raised, s.log (.raise t))
  | .call u next, s => andThen (call u s) (runBody call t next)
  | .act change next, s =>
      runBody call t (next (change s.world)) { s with world := change s.world }

/-- The end of `on_target`: the body is recorded only once it has returned. -/
def State.complete (s : State T W) (t : T) : State T W :=
  { s with calledTargets := s.calledTargets ++ [t], trace := s.trace ++ [.finish t] }

/-- What `on_target` does for a target that is not completed yet. -/
def perform (depend call : T → State T W → Status × State T W) (target : Target T W) (t : T)
    (s : State T W) : Status × State T W :=
  andThen (runDepends depend t target.depends s) fun s =>
    andThen (runBody call t target.body (s.log (.start t))) fun s => (.ok, s.complete t)

def onTarget [DecidableEq T] (targets : T → Target T W) :
    Nat → Origin T → T → State T W → Status × State T W
  | 0, _, _, s => (.starved, s)
  | fuel + 1, origin, t, s =>
      if t ∈ s.calledTargets then (.ok, s.log (.call origin t))
      else
        perform (onTarget targets fuel (.dependency t)) (onTarget targets fuel (.body t))
          (targets t) t ((s.log (.call origin t)).log (.enter t))

def runNames [DecidableEq T] (targets : T → Target T W) (available : String → Option T)
    (fuel : Nat) : List String → State T W → Status × State T W
  | [], s => (.ok, s)
  | name :: rest, s =>
      match available name with
      | some t =>
          andThen (onTarget targets fuel .commandLine t s) (runNames targets available fuel rest)
      | none =>
          runNames targets available fuel rest
            (s.log (.print ("Target '" ++ name ++ "' not found")))

/-- The build: `argv` without the program's name, which is `argv0`. Without names the
targets are listed by `help`, a target of its own. -/
def main [DecidableEq T] (targets : T → Target T W) (available : String → Option T) (help : T)
    (fuel : Nat) (argv0 : String) (argv : List String) (s : State T W) : Status × State T W :=
  andThen (runNames targets available fuel argv s) fun s =>
    if argv = [] then
      onTarget targets fuel .commandLine help (s.log (.print ("Usage: " ++ argv0 ++ " <target>...")))
    else (.ok, s)

end MinLinux.Build
