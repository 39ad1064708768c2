import SignedManifest.Export.Writer
/-!
What an export does to its tree, as a list of actions. Actions run in order up to the first failure;
what was written before stays.
-/
namespace SignedManifest

inductive Action where
  /-- Write a file of the export tree. -/
  | write (names : List String) (content : FileContent)
  /-- Copy a text file from outside into the export tree. -/
  | copy (source : String) (names : List String)
  /-- Give up. -/
  | fail (error : ExportError)

abbrev Plan := List Action

def pathBelow (root : String) (names : List String) : String := names.foldl Path.join root

def Action.run (root : String) (d : Disk) : Action → Except ExportError Unit × Disk
  | write names content => d.writeExport (pathBelow root names) content
  | copy source names =>
    match d.contentText source with
    | .error e => (.error (.legacyRules source e), d)
    | .ok text => d.writeExport (pathBelow root names) (.text [text])
  | fail e => (.error e, d)

def Plan.run (root : String) (d : Disk) : Plan → Except ExportError Unit × Disk
  | [] => (.ok (), d)
  | a :: rest =>
    match a.run root d with
    | (.ok (), d) => Plan.run root d rest
    | failed => failed

/-- The path of a record's file in a directory. The file has a name made of one of the record's
attributes, which must be a plain name. -/
def recordPath (dir stem extension : String) : Except ExportError String :=
  if Path.isPlainName stem then .ok (Path.join dir (stem ++ "." ++ extension))
  else .error (.invalidFileName stem)

def Action.record (dir stem extension : String) (content : FileContent) : Action :=
  if Path.isPlainName stem then .write [dir, stem ++ "." ++ extension] content
  else .fail (.invalidFileName stem)

end SignedManifest
