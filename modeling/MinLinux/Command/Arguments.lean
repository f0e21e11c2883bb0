import MinLinux.Command.System

/-! Taking a command line apart, as init/command.c does it: in place, by writing NULs
over the blanks behind each argument. Every access is checked, so a scan that left
the memory would be a fault, and a store behind the vector an overflow. -/
namespace MinLinux.Command

def isBlank (c : UInt8) : Bool := c == 32 || c == 9

def MAX_ARGS : Nat := 32

/-- Skip blanks to find the next arg, or NULL. -/
def findArgFrom : List UInt8 → Nat → Option (Option Nat)
  | [], _ => none
  | c :: rest, p =>
      if isBlank c then findArgFrom rest (p + 1)
      else if c = 0 then some none
      else some (some p)

def findArg (p : Nat) : Proc (Option Nat) := do
  let mem ← Dialog.get
  match findArgFrom (mem.drop p) p with
  | none => Dialog.stop .fault
  | some found => pure found

/-- Where the current arg ends, and whether a blank ends it. -/
def argEndFrom : List UInt8 → Nat → Option (Nat × Bool)
  | [], _ => none
  | c :: rest, p =>
      if !isBlank c && c != 0 then argEndFrom rest (p + 1)
      else some (p, c != 0)

/-- Returns the rest of the string after the current arg. -/
def terminateArg (p : Nat) : Proc Nat := do
  let mem ← Dialog.get
  match argEndFrom (mem.drop p) p with
  | none => Dialog.stop .fault
  | some (q, false) => pure q
  | some (q, true) =>
      Dialog.put (mem.set q 0)
      pure (q + 1)

/-- Both arrays hold their terminator; `none` is a read past the end of one. -/
def streqFrom : List UInt8 → List UInt8 → Option Bool
  | a :: as, b :: bs =>
      if a ≠ b then some false
      else if a = 0 then some true
      else streqFrom as bs
  | _, _ => none

def streq (p : Nat) (name : List UInt8) : Proc Bool := do
  let mem ← Dialog.get
  match streqFrom (mem.drop p) (name ++ [0]) with
  | none => Dialog.stop .fault
  | some equal => pure equal

/-- One element of an argument vector, which starts out uninitialised. -/
inductive Arg where
  | uninit
  | null
  | str (p : CharPtr)
deriving DecidableEq

def storeArg (args : List Arg) (i : Nat) (arg : Arg) : Proc (List Arg) :=
  if i < args.length then pure (args.set i arg) else Dialog.stop .overflow

/-- The loop of `fill_args`, with `left` iterations until `i` is `maxargs`. The
vector it fills starts at index `base` of the caller's array. -/
def fillLoop (base : Nat) : Nat → Nat → List Arg → Option Nat → Proc (Nat × List Arg)
  | 0, i, args, _ => pure (i, args)
  | _ + 1, i, args, none => pure (i, args)
  | left + 1, i, args, some next => do
      let temp ← terminateArg next
      let args ← storeArg args (base + i) (.str (.line next))
      let next ← findArg temp
      fillLoop base left (i + 1) args next

def fillArgs (maxargs base : Nat) (args : List Arg) (next : Option Nat) : Proc (List Arg) := do
  let (i, args) ← fillLoop base maxargs 0 args next
  if i = MAX_ARGS then
    writeStr (ascii "Truncated to ")
    writeInt (UInt64.ofNat MAX_ARGS)
    writeStr (ascii " args\n")
    pure args
  else storeArg args (base + i) .null

/-- The strings of a vector up to its NULL, as `execveat` copies them. -/
def loadArgs : List Arg → Proc (List (List UInt8))
  | [] => Dialog.stop .fault
  | .uninit :: _ => Dialog.stop .fault
  | .null :: _ => pure []
  | .str p :: rest => do
      let first ← loadString p
      let others ← loadArgs rest
      pure (first :: others)

end MinLinux.Command
