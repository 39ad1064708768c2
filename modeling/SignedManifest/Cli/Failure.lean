import SignedManifest.Archive.Verification
import SignedManifest.Json.Error
import SignedManifest.Settings.File
/-!
Why a command failed: a cause, and what was being done, outermost first. The causes that carry exit
codes of their own keep them under any context.
-/
namespace SignedManifest.Cli

inductive Cause where
  | settings (error : Settings.LoadError)
  | file (error : IoError)
  | json (error : Json.ReadError)
  | exporting (error : ExportError)
  | verifying (error : VerifyError)
  /-- Something is missing that the command needs. -/
  | missing (text : String)
  deriving DecidableEq, Repr

namespace Cause

def chain : Cause → List String
  | settings e => e.message :: e.causes
  | file e => [e.text]
  | json .malformed => ["malformed JSON"]
  | json (.data e) => [e.message]
  | exporting e => e.message :: e.causes
  | verifying e => e.message :: e.causes
  | missing text => [text]

def exitCode : Cause → Nat
  | exporting e => e.exitCode
  | verifying e => e.exitCode
  | _ => 2

end Cause

structure Failure where
  contexts : List String := []
  cause : Cause
  deriving DecidableEq, Repr

namespace Failure

def chain (f : Failure) : List String := f.contexts ++ f.cause.chain

def exitCode (f : Failure) : Nat := f.cause.exitCode

def indented (first others : String) (text : String) : String :=
  first ++ String.join (text.toList.map fun c => if c = '\n' then "\n" ++ others else c.toString)

def causeLines : List String → List String
  | [] => []
  | [cause] => [indented "    " "    " cause]
  | causes => causes.zipIdx.map fun (cause, i) =>
    let number := toString i
    indented (String.ofList (List.replicate (5 - number.length) ' ') ++ number ++ ": ") "       " cause

def reportOf : List String → String
  | [] => ""
  | [message] => "fatal: " ++ message ++ "\n"
  | message :: causes =>
    "fatal: " ++ message ++ "\n\nCaused by:\n" ++ "\n".intercalate (causeLines causes) ++ "\n"

def report (f : Failure) : String := reportOf f.chain

end Failure

end SignedManifest.Cli
