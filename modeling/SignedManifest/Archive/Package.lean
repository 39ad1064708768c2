import SignedManifest.Settings
import SignedManifest.Export.Error
import SignedManifest.Zip.Writer
/-!
The two layers of a manifest. The inner archive holds every file of an export tree; the signed
archive holds the inner one and a signature over exactly its bytes.
-/
namespace SignedManifest

abbrev Signer := ByteArray → Except ExportError ByteArray

abbrev Verifier := (data signature : ByteArray) → Bool

def innerName : String := "consumer_export.zip"

def signatureName : String := "signature"

def innerComment (uuid : String) : String := "tally export for " ++ uuid

def signedComment (uuid : String) : String := "signed tally export for " ++ uuid

def signedFileName (uuid exportDir : String) : String :=
  uuid ++ "-" ++ (Path.fileName? exportDir).getD "export" ++ ".zip"

def entryName (naming : EntryNaming) (exportDir : String) (names : List String) : String :=
  match naming with
  | .flat => names.getLast?.getD ""
  | .relative => "/".intercalate ((Path.fileName? exportDir).toList ++ names)

def firstRepeated (seen : List String) : List String → Option String
  | [] => none
  | s :: r => if seen.contains s then some s else firstRepeated (s :: seen) r

def innerEntries (d : Disk) (exportDir : String) (naming : EntryNaming) :
    Except ExportError (List Zip.Entry) :=
  match d.locate exportDir with
  | .error e => .error (.io exportDir (.other ("walk of " ++ exportDir ++ ": " ++ e.text)))
  | .ok place =>
    let entries := (d.filesBelow place).map fun (names, bytes) =>
      (⟨entryName naming exportDir names, bytes⟩ : Zip.Entry)
    match firstRepeated [] (entries.map (·.name)) with
    | some name => .error (.duplicateEntry name)
    | none => .ok entries

def encodeArchive (a : Zip.Archive) : Except ExportError ByteArray :=
  if a.comment.utf8ByteSize ≤ Zip.commentLimit then .ok a.encode
  else .error (.zip "Invalid comment length")

/-- Makes a file, gathers its content while it is still empty, and writes it. -/
def fillFile (d : Disk) (path : String) (content : Disk → Except ExportError ByteArray) :
    Except ExportError ByteArray × Disk :=
  match d.createFile path ByteArray.empty with
  | .error e => (.error (.io path e), d)
  | .ok opened =>
    match content opened with
    | .error e => (.error e, opened)
    | .ok bytes =>
      match opened.createFile path bytes with
      | .error e => (.error (.io path e), opened)
      | .ok written => (.ok bytes, written)

/-- Packs the export directory into the inner archive in `workDir`, signs its bytes and writes the
signed archive beside it. The path of the signed archive is the answer. -/
def package (uuid workDir exportDir : String) (naming : EntryNaming) (signer : Signer) (d : Disk) :
    Except ExportError String × Disk :=
  let innerContent (d : Disk) : Except ExportError ByteArray := do
    encodeArchive ⟨innerComment uuid, ← innerEntries d exportDir naming⟩
  match fillFile d (Path.join workDir innerName) innerContent with
  | (.error e, d) => (.error e, d)
  | (.ok inner, d) =>
    match signer inner with
    | .error e => (.error e, d)
    | .ok signature =>
      let path := Path.join workDir (signedFileName uuid exportDir)
      let signed : Zip.Archive :=
        ⟨signedComment uuid, [⟨innerName, inner⟩, ⟨signatureName, signature⟩]⟩
      match fillFile d path fun _ => encodeArchive signed with
      | (.error e, d) => (.error e, d)
      | (.ok _, d) => (.ok path, d)

end SignedManifest
