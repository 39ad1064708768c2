import SignedManifest.Archive.Package
import SignedManifest.Digest.Sha256
import SignedManifest.Zip.Reader
/-!
Checking signed archives. Only the two entries that packing writes may be there; the inner archive
is opened after its signature was accepted, and is otherwise left alone. How archives are read is left
open where it does not matter.
-/
namespace SignedManifest

inductive VerifyError where
  | io (path : String) (cause : IoError)
  /-- The file or the inner archive is no archive, perhaps because it could not be read. -/
  | malformed (detail : String) (cause : Option IoError := none)
  | missingEntry (name : String)
  | unexpectedEntry (name : String)
  /-- There is no usable key to check with. -/
  | key (reason : String)
  | signatureInvalid
  deriving DecidableEq, Repr

namespace VerifyError

def message : VerifyError → String
  | io path cause => "failed to read " ++ path ++ ": " ++ cause.text
  | malformed detail _ => "not a valid manifest archive: " ++ detail
  | missingEntry name => "manifest is missing entry '" ++ name ++ "'"
  | unexpectedEntry name => "manifest contains unexpected entry '" ++ name ++ "'"
  | key reason => "invalid verification key: " ++ reason
  | signatureInvalid => "manifest signature verification failed"

def causes : VerifyError → List String
  | io _ cause => [cause.text]
  | malformed detail cause => detail :: (cause.map IoError.text).toList
  | _ => []

def exitCode : VerifyError → Nat
  | signatureInvalid => 4
  | missingEntry _ => 2
  | unexpectedEntry _ => 2
  | key _ => 3
  | io _ _ => 1
  | malformed _ _ => 1

def noArchive : VerifyError := malformed "no directory found"

end VerifyError

structure VerifiedManifest where
  inner : ByteArray
  /-- The entry names of the inner archive, in archive order. -/
  entries : List String
  digest : String

namespace Verification

def isExpected (name : String) : Bool := name == innerName || name == signatureName

def readEntry (path : String) (index : Zip.Index) (name : String) : Except VerifyError ByteArray :=
  match index.content? name with
  | none => .error (.missingEntry name)
  | some (.ok bytes) => .ok bytes
  | some (.error .header) => .error (.malformed "unsupported entry")
  | some (.error .content) => .error (.io path (.other "corrupt entry"))

variable (reader : Zip.Reader)

def acceptInner (inner : ByteArray) : Except VerifyError VerifiedManifest :=
  match reader inner with
  | none => .error .noArchive
  | some index => .ok ⟨inner, index.names, Sha256.fingerprint inner⟩

def verifyArchive (verifier : Verifier) (path : String) (archive : ByteArray) :
    Except VerifyError VerifiedManifest := do
  let some index := reader archive | throw .noArchive
  if let some name := index.names.find? (!isExpected ·) then throw (.unexpectedEntry name)
  let inner ← readEntry path index innerName
  let signature ← readEntry path index signatureName
  if verifier inner signature then acceptInner reader inner else throw .signatureInvalid

/-- Checks a file with any reader of archives. A directory can be opened, and is then no archive. -/
def verifyManifestBy (verifier : Verifier) (path : String) (d : Disk) :
    Except VerifyError VerifiedManifest :=
  match d.content path with
  | .ok archive => verifyArchive reader verifier path archive
  | .error .isDirectory =>
    .error (.malformed ("i/o error: " ++ IoError.isDirectory.text) (some .isDirectory))
  | .error e => .error (.io path e)

def verifyManifest : Verifier → String → Disk → Except VerifyError VerifiedManifest :=
  verifyManifestBy Zip.reader

end Verification

end SignedManifest
