import SignedManifest.Text.Basic
/-!
Reading the arguments of a command. Options have a long name, perhaps a letter, and one value, which
stands behind an equals sign or as the next argument. Complaints arise from left to right: an option
is judged when its value is complete, which for a separate value is at the next option or at the end.
-/
namespace SignedManifest.Cli

inductive UsageError where
  | help
  | version
  /-- Nothing was asked for, so help is given. -/
  | nothingAsked
  | missingCommand
  | unknownCommand
  | unknownArgument
  | missingArgument
  | repeatedArgument
  /-- A value that is missing or is none of those that are possible. -/
  | invalidValue
  /-- A value that cannot be read. -/
  | unreadableValue
  /-- A value where none belongs. -/
  | unwantedValue
  deriving DecidableEq, Repr

namespace UsageError

/-- Requests for help and for the version are no failures. -/
def exitCode : UsageError → Nat
  | help => 0
  | version => 0
  | _ => 2

end UsageError

inductive ValueKind where
  | text
  /-- A path, which is not empty. -/
  | path
  /-- A natural number that fits into 64 bits. -/
  | number
  | oneOf (names : List String)

def number? (value : String) : Option UInt64 :=
  let digits :=
    match value.toList with
    | '+' :: r => r
    | cs => cs
  let n := Text.natOfDigits digits
  if digits ≠ [] ∧ digits.all Text.isDigit ∧ n < UInt64.size then some (UInt64.ofNat n) else none

def ValueKind.check (value : String) : ValueKind → Except UsageError Unit
  | text => .ok ()
  | path => if value = "" then .error .invalidValue else .ok ()
  | number => if (number? value).isSome then .ok () else .error .unreadableValue
  | oneOf names => if names.contains value then .ok () else .error .invalidValue

structure Argument where
  name : String
  letter : Option Char := none
  kind : ValueKind
  required : Bool := false
  repeatable : Bool := false

structure Grammar where
  options : List Argument
  positional : Option Argument := none
  /-- The commands that may follow. -/
  commands : List String := []
  /-- Whether the version may be asked for. -/
  versioned : Bool := false

abbrev Values := List (String × String)

structure Reading where
  values : Values := []
  /-- An argument that is not judged yet, with its value if that was there. -/
  pending : Option (Argument × Option String) := none
  /-- Whether the next argument is the value of the pending one. -/
  waiting : Bool := false
  /-- Whether two dashes stood before, after which nothing is an option. -/
  trailing : Bool := false
  /-- Whether the positional argument was there. -/
  positionalSeen : Bool := false

namespace Reading

def accept (r : Reading) (a : Argument) (value : Option String) : Except UsageError Reading := do
  let some v := value | throw .invalidValue
  if !a.repeatable ∧ (r.values.lookup a.name).isSome then throw .repeatedArgument
  a.kind.check v
  return { r with values := r.values ++ [(a.name, v)] }

def settle (r : Reading) : Except UsageError Reading :=
  match r.pending with
  | none => .ok { r with waiting := false }
  | some (a, value) => { r with pending := none, waiting := false }.accept a value

def option (r : Reading) (a : Argument) (attached : Option String) : Except UsageError Reading := do
  let r ← r.settle
  match attached with
  | some v => r.accept a (some v)
  | none => return { r with pending := some (a, none), waiting := true }

/-- Ends the reading with a request, once what came before is judged. -/
def request (r : Reading) (e : UsageError) : Except UsageError Reading := do
  let _ ← r.settle
  throw e

def splitValue (cs : List Char) : String × Option String :=
  let name := cs.takeWhile (· ≠ '=')
  match cs.drop name.length with
  | [] => (String.ofList name, none)
  | _ :: v => (String.ofList name, some (String.ofList v))

def long (g : Grammar) (r : Reading) (cs : List Char) : Except UsageError Reading :=
  let (name, attached) := splitValue cs
  match g.options.find? (·.name == name) with
  | some a => r.option a attached
  | none =>
    if name = "help" ∨ (name = "version" ∧ g.versioned) then
      if attached.isSome then .error .unwantedValue
      else r.request (if name = "help" then .help else .version)
    else .error .unknownArgument

def short (g : Grammar) (r : Reading) (c : Char) (rest : List Char) : Except UsageError Reading :=
  match g.options.find? (·.letter == some c) with
  | some a =>
    match rest with
    | [] => r.option a none
    | '=' :: v => r.option a (some (String.ofList v))
    | v => r.option a (some (String.ofList v))
  | none =>
    if c = 'h' then r.request .help
    else if c = 'V' ∧ g.versioned then r.request .version
    else .error .unknownArgument

def bare (g : Grammar) (r : Reading) (arg : String) : Except UsageError Reading :=
  match g.positional with
  | some a =>
    if r.positionalSeen then .error .unknownArgument
    else do
      let r ← r.settle
      return { r with pending := some (a, some arg), positionalSeen := true }
  | none =>
    if g.commands.isEmpty ∨ (r.trailing ∧ g.commands.contains arg) then .error .unknownArgument
    else .error .unknownCommand

def step (g : Grammar) (r : Reading) (arg : String) : Except UsageError Reading :=
  if r.trailing then r.bare g arg
  else
    match arg.toList with
    | ['-', '-'] => .ok { r with trailing := true }
    | '-' :: '-' :: name => r.long g name
    | '-' :: c :: rest => r.short g c rest
    | _ =>
      if r.waiting then
        .ok { r with pending := r.pending.map fun (a, _) => (a, some arg), waiting := false }
      else r.bare g arg

/-- Reads arguments up to the end or to the name of a command, which is the answer with the arguments
behind it. -/
def run (g : Grammar) (r : Reading) :
    List String → Except UsageError (Reading × Option (String × List String))
  | [] => .ok (r, none)
  | arg :: rest =>
    if !r.trailing ∧ !r.waiting ∧ g.commands.contains arg then .ok (r, some (arg, rest))
    else do (← r.step g arg).run g rest

end Reading

def withVariables (g : Grammar) (var : String → Option String) (r : Reading) :
    Except UsageError Values := do
  let fromVariables ← g.options.filterMapM fun a => do
    if (r.values.lookup a.name).isSome then return none
    match var a.name with
    | none => return none
    | some v =>
      a.kind.check v
      return some (a.name, v)
  return r.values ++ fromVariables

/-- The values of a command that has no further commands, and those among them that were given as
arguments. Required ones must be there. -/
def commandValues (g : Grammar) (var : String → Option String) (args : List String) :
    Except UsageError (Values × Values) := do
  let (r, _) ← ({} : Reading).run g args
  let r ← r.settle
  let values ← withVariables g var r
  let missing (a : Argument) : Bool := a.required && (values.lookup a.name).isNone
  if (g.options ++ g.positional.toList).any missing then throw .missingArgument
  return (values, r.values)

end SignedManifest.Cli
