import SignedManifest.Disk.Basic
import SignedManifest.Settings
import SignedManifest.Yaml.Node
/-!
Settings in a YAML file: a mapping of the settings' names, each at most once. What is not there keeps
its value, and other names are passed over. An empty document changes nothing.
-/
namespace SignedManifest

namespace Yaml.Node

/-- The text of a scalar, whatever it would mean elsewhere. -/
def text? : Node → Option String
  | scalar _ _ text => some text
  | _ => none

def nullTag : String := "tag:yaml.org,2002:null"

def isNullWord (text : String) : Bool := ["null", "Null", "NULL", "~"].contains text

/-- The text of a scalar, or nothing for a plain one that is empty or a word for nothing. -/
def optionalText? : Node → Option (Option String)
  | scalar tag plain text =>
    if !plain then some (some text)
    else
      match tag with
      | some tag =>
        if tag ≠ nullTag then some (some text)
        else if isNullWord text then some none
        else none
      | none => some (if text = "" ∨ isNullWord text then none else some text)
  | _ => none

def tagName? (tag : Option String) : Option String := do
  match (← tag).toList with
  | ['!'] => some "!"
  | '!' :: name => some (String.ofList name)
  | _ => none

def choice? {α : Type} (names : List (String × α)) : Node → Option α
  | scalar tag plain text =>
    match tagName? tag with
    | some name => if plain && (text == "" || isNullWord text) then names.lookup name else none
    | none => names.lookup text
  | _ => none

end Yaml.Node

namespace Settings

def withEntry (s : Settings) (name : String) (v : Yaml.Node) : Option Settings :=
  match name with
  | "work_dir" => v.text?.map fun t => { s with workDir := t }
  | "prefix_web_url" => v.optionalText?.map fun t => { s with prefixWebUrl := t }
  | "prefix_api_url" => v.optionalText?.map fun t => { s with prefixApiUrl := t }
  | "version" => v.text?.map fun t => { s with version := t }
  | "legacy_rules_path" => v.optionalText?.map fun t => { s with legacyRulesPath := t }
  | "entry_naming" => (v.choice? EntryNaming.names).map fun n => { s with entryNaming := n }
  | "signing_key_path" => v.optionalText?.map fun t => { s with signingKeyPath := t }
  | _ => some s

def names : List String := layout.fields.map (·.name)

def withEntries (s : Settings) (seen : List String) : List (Yaml.Node × Yaml.Node) → Option Settings
  | [] => some s
  | (key, v) :: rest => do
    let name ← key.text?
    if seen.contains name then none
    (← s.withEntry name v).withEntries (if names.contains name then name :: seen else seen) rest

def ofYaml? (text : String) (base : Settings := standard) : Option Settings :=
  if text.toList.all Text.isBlank then some base
  else do
    match ← Yaml.document? text with
    | none => return base
    | some (.mapping entries) => base.withEntries [] entries
    | some (.scalar _ true "") => return base
    | some _ => none

inductive LoadError where
  | read (path : String) (cause : IoError)
  | parse (path : String)
  deriving DecidableEq, Repr

namespace LoadError

def malformed : String := "malformed settings"

def message : LoadError → String
  | read path cause => "failed to read config " ++ path ++ ": " ++ cause.text
  | parse path => "invalid config " ++ path ++ ": " ++ malformed

def causes : LoadError → List String
  | read _ cause => [cause.text]
  | parse _ => [malformed]

end LoadError

def load (path : String) (d : Disk) (base : Settings := standard) : Except LoadError Settings :=
  match d.contentText path with
  | .error e => .error (.read path e)
  | .ok text =>
    match ofYaml? text base with
    | some s => .ok s
    | none => .error (.parse path)

end Settings

end SignedManifest
