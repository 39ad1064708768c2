import SignedManifest.Disk.Basic
import SignedManifest.Text.Quoted
/-!
Why an export was given up. Every error is final for the export in progress.
-/
namespace SignedManifest

inductive ExportError where
  /-- An operation on a path failed. -/
  | io (path : String) (cause : IoError)
  /-- An archive cannot hold what was put into it. -/
  | zip (detail : String)
  /-- Two files would get one name in the archive. -/
  | duplicateEntry (name : String)
  /-- A record attribute is no file name. -/
  | invalidFileName (name : String)
  /-- The signer has no key or refused. -/
  | signing (reason : String)
  | legacyRules (path : String) (cause : IoError)
  /-- A lookup failed. -/
  | source (context cause : String)
  /-- An entitlement has changes that were not reconciled. -/
  | dirtyEntitlement (id : String)
  deriving DecidableEq, Repr

namespace ExportError

def message : ExportError → String
  | io path cause => "I/O error on " ++ path ++ ": " ++ cause.text
  | zip detail => "zip error: " ++ detail
  | duplicateEntry name => "duplicate archive entry: " ++ name
  | invalidFileName name => "invalid export file name " ++ Text.quoted name
  | signing reason => "signing failed: " ++ reason
  | legacyRules path cause => "failed to copy legacy rules from " ++ path ++ ": " ++ cause.text
  | source context cause => context ++ ": " ++ cause
  | dirtyEntitlement id => "attempted to export dirty entitlement " ++ id

def causes : ExportError → List String
  | io _ cause => [cause.text]
  | zip detail => [detail]
  | legacyRules _ cause => [cause.text]
  | source _ cause => [cause]
  | _ => []

/-- The data must not be exported, whatever the machinery. -/
def isPolicyViolation : ExportError → Bool
  | dirtyEntitlement _ => true
  | _ => false

def exitCode : ExportError → Nat
  | dirtyEntitlement _ => 3
  | source _ _ => 4
  | signing _ => 5
  | _ => 1

def notices : ExportError → List String
  | dirtyEntitlement id => ["Entitlement " ++ id ++ " is marked as dirty"]
  | _ => []

end ExportError

end SignedManifest
