import SignedManifest.Disk.Path
import SignedManifest.Json.Codec
import SignedManifest.Json.Layout
/-!
Settings of an export, among them how the files of an export tree are named inside the inner archive:
defaults, the JSON form, and the variables of the environment that go over them.
-/
namespace SignedManifest

open Json

inductive EntryNaming where
  /-- The file name alone; two files of one name are an error. -/
  | flat
  /-- The path below the directory that holds the export tree. -/
  | relative
  deriving DecidableEq, Repr, Inhabited

namespace EntryNaming

def names : List (String × EntryNaming) := [("flat", .flat), ("relative", .relative)]

def text : EntryNaming → String
  | flat => "flat"
  | relative => "relative"

def codec : Codec EntryNaming := Codec.choice names

def parse (s : String) : Except String EntryNaming :=
  let name := String.ofList ((Text.trim s.toList).map Char.toLower)
  match names.lookup name with
  | some naming => .ok naming
  | none => .error ("unknown entry naming '" ++ name ++ "' (expected flat or relative)")

end EntryNaming

structure Settings where
  /-- Where export work areas are made. -/
  workDir : String
  prefixWebUrl : Option String
  prefixApiUrl : Option String
  /-- The server version that a manifest states. -/
  version : String
  /-- A file to use in place of the bundled legacy rules. -/
  legacyRulesPath : Option String
  entryNaming : EntryNaming
  signingKeyPath : Option String
  deriving DecidableEq, Repr

namespace Settings

def standardIn (temporary : String) : Settings where
  workDir := temporary
  prefixWebUrl := some "localhost:8443/tally"
  prefixApiUrl := some "localhost:8443/tally"
  version := "0.4.0-1"
  legacyRulesPath := none
  entryNaming := .flat
  signingKeyPath := none

def temporaryDir (var : String → Option String) : String := (var "TMPDIR").getD "/tmp"

def standard : Settings := standardIn "/tmp"

instance : Inhabited Settings := ⟨standard⟩

def pathCodec : Codec String := Codec.textAs "path string"

def layout : Layout Settings where
  name := "SyncConfig"
  fields := [.defaulted "work_dir" pathCodec standard.workDir,
    .defaulted "prefix_web_url" (Codec.option .text) standard.prefixWebUrl,
    .defaulted "prefix_api_url" (Codec.option .text) standard.prefixApiUrl,
    .defaulted "version" .text standard.version,
    .defaulted "legacy_rules_path" (Codec.option pathCodec) standard.legacyRulesPath,
    .defaulted "entry_naming" EntryNaming.codec standard.entryNaming,
    .defaulted "signing_key_path" (Codec.option pathCodec) standard.signingKeyPath]
  make := fun (workDir, web, api, version, legacy, naming, key, _) =>
    ⟨workDir, web, api, version, legacy, naming, key⟩
  parts s := (s.workDir, s.prefixWebUrl, s.prefixApiUrl, s.version, s.legacyRulesPath,
    s.entryNaming, s.signingKeyPath, ())

/-- Equal settings, where paths that differ in spelling alone are equal. -/
def same (a b : Settings) : Bool :=
  let samePath : Option String → Option String → Bool
    | some p, some q => Path.same p q
    | none, none => true
    | _, _ => false
  Path.same a.workDir b.workDir && a.prefixWebUrl == b.prefixWebUrl &&
    a.prefixApiUrl == b.prefixApiUrl && a.version == b.version &&
    samePath a.legacyRulesPath b.legacyRulesPath && a.entryNaming == b.entryNaming &&
    samePath a.signingKeyPath b.signingKeyPath

def isStandard (s : Settings) : Bool := s.same standard

def variableNames : List String := ["TMPDIR", "TALLY_SYNC_WORK_DIR", "TALLY_PREFIX_WEBURL",
  "TALLY_PREFIX_APIURL", "TALLY_VERSION", "TALLY_LEGACY_RULES", "TALLY_SIGNING_KEY",
  "TALLY_ENTRY_NAMING"]

/-- The settings with the variables of the environment over them, and the warnings that this gives:
a naming that is unknown is passed over. -/
def withVariables (s : Settings) (var : String → Option String) : Settings × List String :=
  let given : Settings := { s with
    workDir := (var "TALLY_SYNC_WORK_DIR").getD s.workDir
    prefixWebUrl := (var "TALLY_PREFIX_WEBURL").or s.prefixWebUrl
    prefixApiUrl := (var "TALLY_PREFIX_APIURL").or s.prefixApiUrl
    version := (var "TALLY_VERSION").getD s.version
    legacyRulesPath := (var "TALLY_LEGACY_RULES").or s.legacyRulesPath
    signingKeyPath := (var "TALLY_SIGNING_KEY").or s.signingKeyPath }
  match (var "TALLY_ENTRY_NAMING").map EntryNaming.parse with
  | none => (given, [])
  | some (.ok naming) => ({ given with entryNaming := naming }, [])
  | some (.error reason) =>
    (given, ["Ignoring TALLY_ENTRY_NAMING, keeping " ++ s.entryNaming.text ++ ": " ++ reason])

def describe (s : Settings) : String :=
  let optional (t : Option String) : String :=
    match t with
    | none => "None"
    | some t => "Some(" ++ Text.quoted t ++ ")"
  let naming :=
    match s.entryNaming with
    | .flat => "Flat"
    | .relative => "Relative"
  "SyncConfig \x7b work_dir: " ++ Text.quoted s.workDir ++
    ", prefix_web_url: " ++ optional s.prefixWebUrl ++
    ", prefix_api_url: " ++ optional s.prefixApiUrl ++ ", version: " ++ Text.quoted s.version ++
    ", legacy_rules_path: " ++ optional s.legacyRulesPath ++ ", entry_naming: " ++ naming ++
    ", signing_key_path: " ++ optional s.signingKeyPath ++ " \x7d"

end Settings

end SignedManifest
