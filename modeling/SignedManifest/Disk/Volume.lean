import SignedManifest.Disk.Basic
/-!
A file system with links and with files of several names. Names lead to numbered files, so files that
share a number are one file, and symbolic links are followed as far as the limit on their number lets a
way go. A disk is what a volume without links looks like, as long as every file has one name.
-/
namespace SignedManifest

namespace Volume

inductive Entry where
  | file (number : Nat)
  | dir
  | link (target : String)
  deriving DecidableEq, Repr

/-- What can be told of a place without knowing which number its file has. -/
inductive Sight where
  | file (bytes : ByteArray)
  | dir
  | link (target : String)

/-- Where a way ends: in a directory itself, or at a name in one that may be missing there. -/
inductive Goal where
  | here (dir : Place)
  | named (dir : Place) (name : String)
  deriving DecidableEq, Repr

end Volume

open Volume in
structure Volume where
  entries : SortedMap Place Entry := ∅
  /-- The contents of the files by their numbers; what is not listed is empty. -/
  contents : SortedMap Nat ByteArray := ∅
  current : Place := []

namespace Volume
open Disk

def get? (v : Volume) (p : Place) : Option Entry := if p = [] then some .dir else v.entries.get? p

def bytesOf (v : Volume) (number : Nat) : ByteArray := (v.contents.get? number).getD ByteArray.empty

def look (v : Volume) (p : Place) : Option Sight :=
  (v.get? p).map fun
    | .file n => .file (v.bytesOf n)
    | .dir => .dir
    | .link target => .link target

def put (v : Volume) (p : Place) (e : Entry) : Volume := { v with entries := v.entries.insert p e }

def remove (v : Volume) (p : Place) : Volume := { v with entries := v.entries.erase p }

def rewrite (v : Volume) (number : Nat) (bytes : ByteArray) : Volume :=
  { v with contents := v.contents.insert number bytes }

def freshNumber (v : Volume) : Nat :=
  v.entries.toList.foldl (fun n (_, e) => match e with | .file k => max n (k + 1) | _ => n) 0

def isDirAt (v : Volume) (p : Place) : Bool := v.get? p == some .dir

def isLinkAt (v : Volume) (p : Place) : Bool :=
  match v.get? p with
  | some (.link _) => true
  | _ => false

def startFrom (base : Place) (path : String) : Place := if Path.isAbsolute path then [] else base

/-- The steps of a path, where a slash at its end asks for a directory. -/
def stepsTo (path : String) : List String :=
  let (steps, slash) := stepsOf path
  if slash then steps ++ ["."] else steps

/-- Where steps from a place lead, if `follow` goes on where they meet a link. The last step may be
missing, and a link there is followed only if the way goes `through` it. -/
def aimBy (v : Volume) (through : Bool) (follow : Place → List String → Except IoError Goal)
    (p : Place) : List String → Except IoError Goal
  | [] => .ok (.here p)
  | s :: r =>
    if !v.isDirAt p then .error .notDirectory
    else if s = "." then v.aimBy through follow p r
    else if s = ".." then v.aimBy through follow p.dropLast r
    else if r = [] ∧ ¬ (through = true ∧ v.isLinkAt (p ++ [s]) = true) then .ok (.named p s)
    else if s.utf8ByteSize > nameLimit then .error .nameTooLong
    else
      match v.get? (p ++ [s]) with
      | none => .error .noEntry
      | some (.file _) => .error .notDirectory
      | some .dir => v.aimBy through follow (p ++ [s]) r
      | some (.link target) => do
        checkPath target
        follow (startFrom p target) (stepsTo target ++ r)

def aim (v : Volume) (through : Bool) : (links : Nat) → Place → List String → Except IoError Goal
  | 0 => v.aimBy through fun _ _ => .error .linkLoop
  | n + 1 => v.aimBy through (v.aim through n)

def linkLimit : Nat := 40

def aimAt (v : Volume) (through : Bool) (path : String) : Except IoError Goal :=
  v.aim through linkLimit (startFrom v.current path) (stepsOf path).1

def locate (v : Volume) (path : String) : Except IoError Place := do
  checkPath path
  match ← v.aim true linkLimit (startFrom v.current path) (stepsTo path) with
  | .here p => return p
  | .named dir name =>
    if name.utf8ByteSize > nameLimit then throw .nameTooLong
    if (v.get? (dir ++ [name])).isNone then throw .noEntry
    return dir ++ [name]

def isDir (v : Volume) (path : String) : Bool :=
  match v.locate path with
  | .ok p => v.isDirAt p
  | .error _ => false

def content (v : Volume) (path : String) : Except IoError ByteArray := do
  match v.get? (← v.locate path) with
  | some (.file n) => return v.bytesOf n
  | some .dir => throw .isDirectory
  | _ => throw .noEntry

def makeDir (v : Volume) (path : String) : Except IoError Volume := do
  checkPath path
  match ← v.aimAt false path with
  | .here _ => throw .occupied
  | .named dir name =>
    if name.utf8ByteSize > nameLimit then throw .nameTooLong
    if (v.get? (dir ++ [name])).isSome then throw .occupied
    return v.put (dir ++ [name]) .dir

def createFile (v : Volume) (path : String) (bytes : ByteArray) : Except IoError Volume := do
  checkPath path
  match ← v.aimAt true path with
  | .here _ => throw .isDirectory
  | .named dir name =>
    if (stepsOf path).2 then throw .isDirectory
    if name.utf8ByteSize > nameLimit then throw .nameTooLong
    match v.get? (dir ++ [name]) with
    | some .dir => throw .isDirectory
    | some (.link _) => throw .linkLoop
    | some (.file n) => return v.rewrite n bytes
    | none => return (v.put (dir ++ [name]) (.file v.freshNumber)).rewrite v.freshNumber bytes

/-- Moves what stands at a place to a path, in place of what stands there unless that is a directory.
Nothing happens between two names of one file. -/
def moveTo (v : Volume) (source : Place) (moved : Entry) (path : String) : Except IoError Volume := do
  checkPath path
  match ← v.aimAt false path with
  | .here _ => throw .busy
  | .named dir name =>
    if (stepsOf path).2 then throw .notDirectory
    if name.utf8ByteSize > nameLimit then throw .nameTooLong
    if v.isDirAt (dir ++ [name]) then throw .isDirectory
    if v.get? (dir ++ [name]) = some moved ∧ ¬ v.isLinkAt (dir ++ [name]) then return v
    return (v.remove source).put (dir ++ [name]) moved

def renameFile (v : Volume) (source path : String) : Except IoError Volume := do
  checkPath source
  match ← v.aimAt false source with
  | .here _ => throw .noEntry
  | .named dir name =>
    if name.utf8ByteSize > nameLimit then throw .nameTooLong
    match v.get? (dir ++ [name]) with
    | none => throw .noEntry
    | some .dir => throw .noEntry
    | some moved =>
      if (stepsOf source).2 then throw .notDirectory
      v.moveTo (dir ++ [name]) moved path

instance : FileSystem Volume := ⟨makeDir, createFile, renameFile, isDir⟩

end Volume

end SignedManifest
