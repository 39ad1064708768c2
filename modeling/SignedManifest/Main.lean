import SignedManifest.Cli.Footprint
import SignedManifest.Subscription.Record
import Std.Time.DateTime.Timestamp
/-!
The program. It takes over the part of the file system that a command has to do with, carries the
command out on that value, writes back what has changed, and prints.
-/
namespace SignedManifest.Program

def pathOf (p : Place) : String := "/" ++ "/".intercalate p

def machinePath (p : Place) := (· / pathOf p) <$> IO.currentDir

/-- Takes over what stands at a place, unless that is known. The content of a file is taken over only
if it is asked for. -/
def look (withContent : Bool) (d : Disk) (p : Place) : IO Disk := do
  if (d.get? p).isSome then return d
  let path ← machinePath p
  if ← path.isDir then return d.put p .dir
  if !(← path.pathExists) then return d
  if !withContent then return d.put p (.file ByteArray.empty)
  match ← (IO.FS.readBinFile path).toBaseIO with
  | .ok bytes => return d.put p (.file bytes)
  | .error _ => return d

def lookAlong (d : Disk) (path : String) : IO Disk :=
  (d.placesOn path).foldlM (look true) d

def lookInto (d : Disk) (path : String) : IO Disk := do
  let d ← lookAlong d path
  match d.locate path with
  | .error _ => return d
  | .ok p =>
    if !d.isDirAt p then return d
    let entries ← (← machinePath p).readDir
    entries.foldlM (fun d entry => look false d (p ++ [entry.fileName])) d

/-- Makes the changes between two file systems on this machine. Nobody else may look into the
directories with the given names. -/
def writeBack (closed : List String) (before after : Disk) : IO Unit := do
  for (p, node) in after.nodes.toList do
    match node, before.get? p with
    | .dir, none =>
      IO.FS.createDir (pathOf p)
      if closed.contains (p.getLast?.getD "") then
        IO.setAccessRights (pathOf p) { user := { read := true, write := true, execution := true } }
    | .file bytes, some (.file old) => if bytes.data != old.data then IO.FS.writeBinFile (pathOf p) bytes
    | .file bytes, _ => IO.FS.writeBinFile (pathOf p) bytes
    | _, _ => pure ()
  for (p, _) in before.nodes.toList do
    if (after.get? p).isNone then IO.FS.removeFile (pathOf p)

def readVariables : IO (String → Option String) := do
  let values ← (Cli.Invocation.settingsVariable :: Settings.variableNames).mapM fun name => do
    return (name, ← IO.getEnv name)
  return fun name => (values.lookup name).join

def readWorld (var : String → Option String) : IO Cli.World := do
  let nanos := (← Std.Time.Timestamp.now).toNanosecondsSinceUnixEpoch.val.toNat
  let some now := Moment.ofUnix? (nanos / 1000000000) (nanos % 1000000000)
    | throw (IO.userError "the clock is out of range")
  let names ← IO.getRandomBytes 384
  let seed ← IO.getRandomBytes 32
  return ⟨var, now, Cli.areaNamesOf names.toList, Subscription.idOfSeed seed⟩

def readDisk (w : Cli.World) (i : Cli.Invocation) : IO Disk := do
  let current := (Path.segments (← IO.currentDir).toString).filter (· ≠ "")
  let d ← (Disk.placesTo current).foldlM (look true) ⟨∅, current⟩
  let d ← i.settingsPath.toList.foldlM lookAlong d
  match Cli.settingsFor w i.settingsPath d with
  | .error _ => return d
  | .ok settings =>
    let d ← (i.command.filesRead settings).foldlM lookAlong d
    (i.command.dirsFilled settings).foldlM lookInto d

def usage : String :=
  "Usage: tally [--config <CONFIG>] <COMMAND>\n\nCommands: " ++
    ", ".intercalate Cli.Invocation.topGrammar.commands ++ "\n"

def answerUsage : Cli.UsageError → IO Unit
  | .help => IO.print usage
  | .version => IO.print Cli.Invocation.versionText
  | _ => IO.eprint usage

def run (args : List String) : IO Nat := do
  let var ← readVariables
  match Cli.Invocation.parse var args with
  | .error e =>
    answerUsage e
    return e.exitCode
  | .ok invocation =>
    let w ← readWorld var
    let before ← readDisk w invocation
    let (result, after) := invocation.run w before
    writeBack w.areaNames before after
    match result with
    | .ok printed =>
      IO.eprint printed.remarks
      IO.print printed.output
    | .error failure => IO.eprint failure.report
    return Cli.exitCode (.ok (result, after))

end SignedManifest.Program

def main (args : List String) : IO UInt32 := do
  try
    return UInt32.ofNat (← SignedManifest.Program.run args)
  catch e =>
    IO.eprintln ("fatal: " ++ toString e)
    return 1
