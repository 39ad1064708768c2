import SignedManifest.Cli.Arguments
/-!
What the program can be asked to do, and how the command line says it. The settings file may be named
before or behind the command, or by a variable; the argument that comes last counts. Arguments and the
paths in them are UTF-8 text: those that are not are left out here.
-/
namespace SignedManifest.Cli

inductive RulesChoice where
  | skipDerived
  | all
  deriving DecidableEq, Repr

structure SourceOptions where
  snapshot : String
  key : Option String
  out : Option String
  deriving DecidableEq, Repr

inductive Command where
  | exportAll (source : SourceOptions) (cdnLabel webUrl apiUrl : Option String) (principal : String)
      (rules : RulesChoice)
  | certificates (source : SourceOptions) (serials : List UInt64) (principal : String)
  | verify (key archive : String)
  | reconcile (existing incoming : String)
  deriving DecidableEq, Repr

structure Invocation where
  settingsPath : Option String
  command : Command
  deriving DecidableEq, Repr

namespace Invocation

def settingsOption : Argument := { name := "config", kind := .path }

def settingsVariable : String := "TALLY_CONFIG"

def sourceOptions : List Argument :=
  [{ name := "snapshot", kind := .path, required := true }, { name := "key", kind := .path },
    { name := "out", letter := some 'o', kind := .path }]

def ruleNames : List (String × RulesChoice) := [("skip-derived", .skipDerived), ("all", .all)]

def standardPrincipal : String := "tally-cli"

def exportGrammar : Grammar where
  options := settingsOption :: sourceOptions ++
    [{ name := "cdn-label", kind := .text }, { name := "web-url", kind := .text },
      { name := "api-url", kind := .text }, { name := "principal", kind := .text },
      { name := "rules", kind := .oneOf (ruleNames.map (·.1)) }]

def certificatesGrammar : Grammar where
  options := settingsOption :: sourceOptions ++
    [{ name := "serial", kind := .number, repeatable := true }, { name := "principal", kind := .text }]

def verifyGrammar : Grammar where
  options := [settingsOption, { name := "key", kind := .path, required := true }]
  positional := some { name := "ARCHIVE", kind := .path, required := true }

def reconcileGrammar : Grammar where
  options := [settingsOption, { name := "existing", kind := .path, required := true },
    { name := "incoming", kind := .path, required := true }]

def grammars : List (String × Grammar) := [("export", exportGrammar), ("certs", certificatesGrammar),
  ("verify", verifyGrammar), ("reconcile", reconcileGrammar)]

def helpName : String := "help"

def versionText : String := "tally 0.4.0\n"

def topGrammar : Grammar where
  options := [settingsOption]
  commands := grammars.map (·.1) ++ [helpName]
  versioned := true

def sourceOf (v : Values) : SourceOptions :=
  ⟨(v.lookup "snapshot").getD "", v.lookup "key", v.lookup "out"⟩

def principalOf (v : Values) : String := (v.lookup "principal").getD standardPrincipal

def commandOf (name : String) (v : Values) : Command :=
  match name with
  | "export" =>
    .exportAll (sourceOf v) (v.lookup "cdn-label") (v.lookup "web-url") (v.lookup "api-url")
      (principalOf v) (((v.lookup "rules").bind fun n => ruleNames.lookup n).getD .skipDerived)
  | "certs" =>
    .certificates (sourceOf v) (v.filterMap fun e => if e.1 = "serial" then number? e.2 else none)
      (principalOf v)
  | "verify" => .verify ((v.lookup "key").getD "") ((v.lookup "ARCHIVE").getD "")
  | _ => .reconcile ((v.lookup "existing").getD "") ((v.lookup "incoming").getD "")

def helpOn : List String → UsageError
  | [] => .help
  | [name] => if topGrammar.commands.contains name then .help else .unknownCommand
  | _ => .unknownCommand

def parse (var : String → Option String) (args : List String) : Except UsageError Invocation := do
  let fromVariable (name : String) : Option String :=
    if name = settingsOption.name then var settingsVariable else none
  let (top, command) ← ({} : Reading).run topGrammar args
  match command with
  | none =>
    let values ← withVariables topGrammar fromVariable (← top.settle)
    throw (if values.isEmpty then .nothingAsked else .missingCommand)
  | some (name, rest) =>
    if name = helpName then throw (helpOn rest)
    let some grammar := grammars.lookup name | throw .unknownCommand
    let (values, given) ← commandValues grammar fromVariable rest
    let topValues ← withVariables topGrammar fromVariable (← top.settle)
    let settingsPath := (given.lookup settingsOption.name).or (topValues.lookup settingsOption.name)
    return ⟨settingsPath, commandOf name values⟩

end Invocation

end SignedManifest.Cli
