import SignedManifest.Disk.Path
import SignedManifest.SortedMap
/-!
A file system held as a value: a map from the names that lead to a place to what stands there. The
root and the directory above every entry are directories. Every operation either changes one place or
fails and changes nothing.
-/
namespace SignedManifest

abbrev Place := List String

inductive Node where
  | file (bytes : ByteArray)
  | dir
  | link

inductive IoError where
  | noEntry
  | busy
  | occupied
  | notDirectory
  | isDirectory
  | nameTooLong
  /-- A failure that the operating system did not number. -/
  | other (detail : String)
  deriving DecidableEq, Repr

namespace IoError

def numbered (text : String) (n : Nat) : String := text ++ " (os error " ++ toString n ++ ")"

def text : IoError → String
  | noEntry => numbered "No such file or directory" 2
  | busy => numbered "Device or resource busy" 16
  | occupied => numbered "File exists" 17
  | notDirectory => numbered "Not a directory" 20
  | isDirectory => numbered "Is a directory" 21
  | nameTooLong => numbered "File name too long" 36
  | other detail => detail

def nulInPath : IoError := .other "file name contained an unexpected NUL byte"

def notText : IoError := .other "stream did not contain valid UTF-8"

def linkLoop : IoError := .other (numbered "Too many levels of symbolic links" 40)

end IoError

/-! ### What writing needs of a file system -/

/-- The operations by which export files are written. Each one succeeds or changes nothing. -/
class FileSystem (σ : Type) where
  makeDir : σ → String → Except IoError σ
  /-- Makes a file with the given content, or replaces the content of one. -/
  createFile : σ → String → ByteArray → Except IoError σ
  /-- Moves a file to a path, in place of a file that stands there. -/
  renameFile : σ → String → String → Except IoError σ
  isDir : σ → String → Bool

namespace FileSystem

variable {σ : Type} [FileSystem σ]

/-- Makes a directory and those above it as far as they are missing, the fuel bounding how many.
What was made before a failure stays. -/
def makeDirs (d : σ) (path : String) : Nat → Except IoError Unit × σ
  | 0 => (.error (.other "failed to create whole tree"), d)
  | n + 1 =>
    if path = "" then (.ok (), d)
    else
      match makeDir d path with
      | .ok made => (.ok (), made)
      | .error .noEntry =>
        match Path.parent? path with
        | none => (.error (.other "failed to create whole tree"), d)
        | some above =>
          match makeDirs d above n with
          | (.error e, d) => (.error e, d)
          | (.ok (), d) =>
            match makeDir d path with
            | .ok made => (.ok (), made)
            | .error e => if isDir d path then (.ok (), d) else (.error e, d)
      | .error e => if isDir d path then (.ok (), d) else (.error e, d)

def makeDirAll (d : σ) (path : String) : Except IoError Unit × σ :=
  makeDirs d path ((Path.segments path).length + 1)

end FileSystem

/-! ### Disks -/

/-- A file system without live links and without names that share a file. What is said of a disk is
said under this restriction: no path leads through a link or opens one. The links of the map are those
a listed tree may have, and a step into one fails. `Volume` is the file system with both. -/
structure Disk where
  nodes : SortedMap Place Node := ∅
  /-- Where relative paths start. -/
  current : Place := []

namespace Disk

instance : Inhabited Disk := ⟨{}⟩

def get? (d : Disk) (p : Place) : Option Node :=
  if p = [] then some .dir else d.nodes.get? p

def put (d : Disk) (p : Place) (n : Node) : Disk := { d with nodes := d.nodes.insert p n }

def remove (d : Disk) (p : Place) : Disk := { d with nodes := d.nodes.erase p }

def isDirAt (d : Disk) (p : Place) : Bool :=
  match d.get? p with
  | some .dir => true
  | _ => false

def nameLimit : Nat := 255

def pathLimit : Nat := 4096

/-- One step from a place: a dot stays, two dots go up, and a name goes down to what exists. -/
def step (d : Disk) (p : Place) (name : String) : Except IoError Place :=
  if !d.isDirAt p then .error .notDirectory
  else if name = "." then .ok p
  else if name = ".." then .ok p.dropLast
  else if name.utf8ByteSize > nameLimit then .error .nameTooLong
  else
    match d.get? (p ++ [name]) with
    | none => .error .noEntry
    | some .link => .error .noEntry
    | some _ => .ok (p ++ [name])

def walk (d : Disk) (p : Place) : List String → Except IoError Place
  | [] => .ok p
  | s :: r =>
    match d.step p s with
    | .error e => .error e
    | .ok q => d.walk q r

def checkPath (path : String) : Except IoError Unit :=
  if path.toList.contains '\x00' then .error .nulInPath
  else if path = "" then .error .noEntry
  else if path.utf8ByteSize ≥ pathLimit then .error .nameTooLong
  else .ok ()

def stepsOf (path : String) : List String × Bool :=
  let l := Path.segments path
  (l.filter (· ≠ ""), l.getLast? == some "")

def start (d : Disk) (path : String) : Place := if Path.isAbsolute path then [] else d.current

def locate (d : Disk) (path : String) : Except IoError Place := do
  checkPath path
  let (steps, slash) := stepsOf path
  d.walk (d.start path) (if slash then steps ++ ["."] else steps)

/-- The directory of a path and the last step in it, whether or not something stands there; none for
the root. -/
def target (d : Disk) (path : String) : Except IoError (Option (Place × String)) := do
  checkPath path
  let (steps, _) := stepsOf path
  match steps.getLast? with
  | none => return none
  | some name =>
    let dir ← d.walk (d.start path) steps.dropLast
    if !d.isDirAt dir then throw .notDirectory
    return some (dir, name)

def makeDir (d : Disk) (path : String) : Except IoError Disk := do
  match ← d.target path with
  | none => throw .occupied
  | some (dir, name) =>
    if name = "." ∨ name = ".." then throw .occupied
    if name.utf8ByteSize > nameLimit then throw .nameTooLong
    if (d.get? (dir ++ [name])).isSome then throw .occupied
    return d.put (dir ++ [name]) .dir

def createFile (d : Disk) (path : String) (bytes : ByteArray) : Except IoError Disk := do
  match ← d.target path with
  | none => throw .isDirectory
  | some (dir, name) =>
    if name = "." ∨ name = ".." ∨ (stepsOf path).2 then throw .isDirectory
    if name.utf8ByteSize > nameLimit then throw .nameTooLong
    if d.isDirAt (dir ++ [name]) then throw .isDirectory
    return d.put (dir ++ [name]) (.file bytes)

def content (d : Disk) (path : String) : Except IoError ByteArray := do
  match d.get? (← d.locate path) with
  | some (.file bytes) => return bytes
  | some .dir => throw .isDirectory
  | _ => throw .noEntry

def contentText (d : Disk) (path : String) : Except IoError String := do
  match String.fromUTF8? (← d.content path) with
  | some s => return s
  | none => throw .notText

def isDir (d : Disk) (path : String) : Bool :=
  match d.locate path with
  | .ok p => d.isDirAt p
  | .error _ => false

def moveTo (d : Disk) (source : Place) (bytes : ByteArray) (path : String) : Except IoError Disk := do
  match ← d.target path with
  | none => throw .busy
  | some (dir, name) =>
    if name = "." ∨ name = ".." then throw .busy
    if (stepsOf path).2 then throw .notDirectory
    if name.utf8ByteSize > nameLimit then throw .nameTooLong
    if d.isDirAt (dir ++ [name]) then throw .isDirectory
    return (d.remove source).put (dir ++ [name]) (.file bytes)

def renameFile (d : Disk) (source path : String) : Except IoError Disk := do
  let old ← d.locate source
  match d.get? old with
  | some (.file bytes) => d.moveTo old bytes path
  | _ => throw .noEntry

instance : FileSystem Disk := ⟨makeDir, createFile, renameFile, isDir⟩

@[simp] theorem system_makeDir (d : Disk) : FileSystem.makeDir d = d.makeDir := rfl

@[simp] theorem system_createFile (d : Disk) : FileSystem.createFile d = d.createFile := rfl

@[simp] theorem system_renameFile (d : Disk) : FileSystem.renameFile d = d.renameFile := rfl

@[simp] theorem system_isDir (d : Disk) : FileSystem.isDir d = d.isDir := rfl

def makeDirs (d : Disk) (path : String) (fuel : Nat) : Except IoError Unit × Disk :=
  FileSystem.makeDirs d path fuel

def makeDirAll (d : Disk) (path : String) : Except IoError Unit × Disk :=
  FileSystem.makeDirAll d path

def below (d : Disk) (p : Place) : List (Place × Node) :=
  d.nodes.toList.filterMap fun (q, n) =>
    if p.isPrefixOf q && q ≠ p then some (q.drop p.length, n) else none

def filesBelow (d : Disk) (p : Place) : List (Place × ByteArray) :=
  (d.below p).filterMap fun (q, n) =>
    match n with
    | .file bytes => some (q, bytes)
    | _ => none

end Disk

end SignedManifest
