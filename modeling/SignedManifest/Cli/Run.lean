import SignedManifest.Cli.Failure
import SignedManifest.Cli.Invocation
import SignedManifest.Export.Exporter
import SignedManifest.Json.Basic
import SignedManifest.Key.Signature
import SignedManifest.Subscription.Reconciliation
/-!
Carrying out commands. A command works on a file system and on what else the world offers: variables,
the time, names for work areas and ids that nobody has. What it prints comes with the file system
that it leaves behind.
-/
namespace SignedManifest.Cli

structure World where
  /-- The variables of the environment. -/
  var : String → Option String
  now : Moment
  /-- Names to try for a new work area. -/
  areaNames : List String
  /-- An id for the record of a number that has none. -/
  freshId : Nat → String

structure Printed where
  output : String := ""
  /-- What goes beside the output, to people. -/
  remarks : String := ""
  deriving DecidableEq, Repr

abbrev Result := Except Failure Printed × Disk

def inContext {ε α : Type} (context : String) (cause : ε → Cause) : Except ε α → Except Failure α
  | .ok a => .ok a
  | .error e => .error ⟨[context], cause e⟩

def World.settings (w : World) : Settings := .standardIn (Settings.temporaryDir w.var)

/-- The settings in the named file, or the standard ones, with the variables over them. -/
def settingsFor (w : World) (path : Option String) (d : Disk) : Except Failure Settings :=
  match path with
  | none => .ok (w.settings.withVariables w.var).1
  | some path =>
    match Settings.load path d w.settings with
    | .ok s => .ok (s.withVariables w.var).1
    | .error e => .error ⟨[], .settings e⟩

def readJson {α : Type} (c : Json.Codec α) (what path : String) (d : Disk) : Except Failure α := do
  let bytes ← inContext ("failed to read " ++ what ++ " " ++ path) .file (d.content path)
  inContext ("invalid " ++ what ++ " " ++ path) .json (c.decode bytes)

def loadSource (settings : Settings) (source : SourceOptions) (d : Disk) :
    Except Failure (Snapshot × Rsa.PrivateKey) := do
  let snapshot ← readJson Snapshot.layout.codec "snapshot" source.snapshot d
  let some path := source.key.or settings.signingKeyPath
    | throw ⟨[], .missing "no signing key: pass --key or set TALLY_SIGNING_KEY"⟩
  let key ← inContext ("failed to load signing key " ++ path) .exporting (Rsa.PrivateKey.load path d)
  return (snapshot, key)

/-- Copies a file. The target is emptied before anything is read, also where it is the file itself. -/
def copyFile (source target : String) (d : Disk) : Except IoError Unit × Disk :=
  match d.content source >>= fun _ => d.createFile target ByteArray.empty with
  | .error e => (.error e, d)
  | .ok emptied =>
    match emptied.content source >>= emptied.createFile target with
    | .error e => (.error e, emptied)
    | .ok copied => (.ok (), copied)

def copyInto (archive dir : String) (d : Disk) : Except Failure String × Disk :=
  match d.makeDirAll dir with
  | (.error e, d) => (.error ⟨["failed to create output dir " ++ dir], .file e⟩, d)
  | (.ok (), d) =>
    match Path.fileName? archive with
    | none => (.error ⟨[], .missing "archive path has no file name"⟩, d)
    | some name =>
      let target := Path.join dir name
      match copyFile archive target d with
      | (.ok (), d) => (.ok target, d)
      | (.error e, d) => (.error ⟨["failed to copy manifest to " ++ target], .file e⟩, d)

def deliver (archive : String) (out : Option String) (d : Disk) : Result :=
  match out with
  | none => (.ok { output := archive ++ "\n" }, d)
  | some dir =>
    match copyInto archive dir d with
    | (.ok path, d) => (.ok { output := path ++ "\n" }, d)
    | (.error e, d) => (.error e, d)

def exportConsumer (w : World) (settings : Settings) (source : SourceOptions) (rules : ExportRules)
    (principal what : String) (scope : Scope) (d : Disk) : Result :=
  match loadSource settings source d with
  | .error e => (.error e, d)
  | .ok (snapshot, key) =>
    let exporter : Exporter := ⟨settings, snapshot.source, rules, key.sign, principal⟩
    match exporter.run snapshot.consumer scope w.now w.areaNames d with
    | (.error e, d) =>
      (.error ⟨[what ++ " of consumer " ++ snapshot.consumer.uuid ++ " failed"], .exporting e⟩, d)
    | (.ok archive, d) => deliver archive source.out d

def RulesChoice.rules : RulesChoice → ExportRules
  | skipDerived => .skipDerivedPools
  | all => .allowAll

def verifyFile (key archive : String) (d : Disk) : Except Failure Printed := do
  let k ← match Rsa.PublicKey.load key d with
    | .ok k => pure k
    | .error e => throw ⟨[], .verifying e⟩
  let verified ← inContext ("manifest " ++ archive ++ " failed verification") .verifying
    (Verification.verifyManifest k.verify archive d)
  return {
    output := String.join ((verified.digest ++ "\n") :: verified.entries.map ("  " ++ · ++ "\n"))
    remarks := "Manifest verified (" ++ archive ++ "): OK, " ++ toString verified.entries.length ++
      " entries\n" }

def drafts : Json.Codec (List Subscription.Draft) := Json.Codec.list Subscription.Draft.layout.codec

def reconcileFiles (w : World) (existing incoming : String) (d : Disk) : Except Failure Printed := do
  let old ← readJson drafts "existing subscriptions" existing d
  let new ← readJson drafts "incoming subscriptions" incoming d
  let old := Subscription.Draft.settleAll w.freshId old
  let new := Subscription.Draft.settleAll (fun i => w.freshId (old.length + i)) new
  let json := Subscription.Reconciliation.codec.write (Subscription.reconcile old new)
  return { output := json.pretty ++ "\n" }

def Command.run (w : World) (settings : Settings) (d : Disk) : Command → Result
  | exportAll source cdn web api principal rules =>
    exportConsumer w settings source rules.rules principal "export" (.full cdn web api) d
  | certificates source serials principal =>
    let chosen := if serials.isEmpty then none else some (Serials.ofList serials)
    exportConsumer w settings source .allowAll principal "certificate export" (.certificates chosen) d
  | verify key archive => (verifyFile key archive d, d)
  | reconcile existing incoming => (reconcileFiles w existing incoming d, d)

def Invocation.run (w : World) (i : Invocation) (d : Disk) : Result :=
  match settingsFor w i.settingsPath d with
  | .error e => (.error e, d)
  | .ok settings => i.command.run w settings d

def run (w : World) (args : List String) (d : Disk) : Except UsageError Result :=
  (Invocation.parse w.var args).map (·.run w d)

def exitCode : Except UsageError Result → Nat
  | .error e => e.exitCode
  | .ok (.error f, _) => f.exitCode
  | .ok (.ok _, _) => 0

end SignedManifest.Cli
