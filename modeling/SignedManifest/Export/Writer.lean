import SignedManifest.Export.Error
import SignedManifest.Json.Basic
/-!
Writing one file of an export. The content goes into a sibling file first, which then takes the
target's place, so the target never holds part of it.
-/
namespace SignedManifest

inductive FileContent where
  /-- Records one after the other, as compact JSON with keys in order. -/
  | json (records : List Json)
  /-- Blocks of text one after the other. -/
  | text (blocks : List String)

namespace FileContent

def ofRecord (j : Json) : FileContent := json [j]

def pemPair (cert key : String) : FileContent := text [cert, key]

def render : FileContent → String
  | json records => String.join (records.map fun j => j.sorted.text)
  | text blocks => String.join blocks

def bytes (c : FileContent) : ByteArray := c.render.toUTF8

end FileContent

def Disk.siblingOf (path : String) : String := path ++ ".tmp"

namespace FileSystem
open Disk

variable {σ : Type} [FileSystem σ]

def writeThrough (d : σ) (path : String) (bytes : ByteArray) : Except ExportError Unit × σ :=
  match createFile d (siblingOf path) bytes with
  | .error e => (.error (.io (siblingOf path) e), d)
  | .ok written =>
    match renameFile written (siblingOf path) path with
    | .error e => (.error (.io path e), written)
    | .ok moved => (.ok (), moved)

def writeExport (d : σ) (path : String) (content : FileContent) : Except ExportError Unit × σ :=
  match Path.parent? path with
  | none => writeThrough d path content.bytes
  | some dir =>
    match makeDirAll d dir with
    | (.error e, d) => (.error (.io dir e), d)
    | (.ok (), d) => writeThrough d path content.bytes

end FileSystem

namespace Disk

def writeThrough (d : Disk) (path : String) (bytes : ByteArray) : Except ExportError Unit × Disk :=
  FileSystem.writeThrough d path bytes

def writeExport (d : Disk) (path : String) (content : FileContent) :
    Except ExportError Unit × Disk :=
  FileSystem.writeExport d path content

theorem writeThrough_eq (d : Disk) (path : String) (bytes : ByteArray) :
    d.writeThrough path bytes =
      match d.createFile (siblingOf path) bytes with
      | .error e => (.error (.io (siblingOf path) e), d)
      | .ok written =>
        match written.renameFile (siblingOf path) path with
        | .error e => (.error (.io path e), written)
        | .ok moved => (.ok (), moved) := by
  rw [writeThrough, FileSystem.writeThrough, system_createFile]
  cases d.createFile (siblingOf path) bytes with
  | error e => rfl
  | ok written =>
    dsimp only
    rw [system_renameFile]
    cases written.renameFile (siblingOf path) path <;> rfl

theorem writeExport_eq (d : Disk) (path : String) (content : FileContent) :
    d.writeExport path content =
      match Path.parent? path with
      | none => d.writeThrough path content.bytes
      | some dir =>
        match d.makeDirAll dir with
        | (.error e, d) => (.error (.io dir e), d)
        | (.ok (), d) => d.writeThrough path content.bytes := by
  rw [writeExport, FileSystem.writeExport]
  cases Path.parent? path with
  | none => rfl
  | some dir =>
    dsimp only
    rw [← makeDirAll]
    obtain ⟨e | _, made⟩ := d.makeDirAll dir <;> rfl

end Disk

end SignedManifest
