import SignedManifest.Decimal.Shortest
import SignedManifest.Text.Quoted
/-!
Why a JSON text is no record: it is malformed, or it is sound so far and holds something that the
record does not take. `DataError.message` words the second kind.
-/
namespace SignedManifest.Json

/-- A number as it stands in a text: natural below `2 ^ 64`, negative down to `-2 ^ 63`, and binary64
(kept as its bits) for all else. -/
inductive Number where
  | natural (n : Nat)
  | negative (n : Int)
  | double (bits : Nat)
  deriving DecidableEq, Repr

inductive Found where
  | null
  | bool (value : Bool)
  | number (value : Number)
  | string (value : String)
  | sequence
  | map
  deriving DecidableEq, Repr

/-- A fault in the data of a text that is well formed as far as it was read. -/
inductive DataError where
  | missingField (name : String)
  | duplicateField (name : String)
  | invalidType (found : Found) (expected : String)
  | invalidValue (found : Found) (expected : String)
  | invalidLength (length : Nat) (expected : String)
  | unknownVariant (name : String) (known : List String)
  | invalidDate
  deriving DecidableEq, Repr

inductive ReadError where
  | malformed
  | data (error : DataError)
  deriving DecidableEq, Repr

def ticked (s : String) : String := "`" ++ s ++ "`"

def Found.text : Found → String
  | null => "null"
  | bool b => "boolean " ++ ticked (toString b)
  | number (.natural n) => "integer " ++ ticked (toString n)
  | number (.negative n) => "integer " ++ ticked (toString n)
  | number (.double bits) => "floating point " ++ ticked (Decimal.textOfBits bits)
  | string s => "string " ++ Text.quoted s
  | sequence => "sequence"
  | map => "map"

def alternatives : List String → String
  | [] => "there are no variants"
  | [a] => ticked a
  | [a, b] => ticked a ++ " or " ++ ticked b
  | l => "one of " ++ String.intercalate ", " (l.map ticked)

def elements (n : Nat) : String := toString n ++ if n = 1 then " element" else " elements"

def DataError.message : DataError → String
  | missingField name => "missing field " ++ ticked name
  | duplicateField name => "duplicate field " ++ ticked name
  | invalidType found expected => "invalid type: " ++ found.text ++ ", expected " ++ expected
  | invalidValue found expected => "invalid value: " ++ found.text ++ ", expected " ++ expected
  | invalidLength n expected => "invalid length " ++ toString n ++ ", expected " ++ expected
  | unknownVariant name known => "unknown variant " ++ ticked name ++ ", expected " ++ alternatives known
  | invalidDate => "invalid date-time"

end SignedManifest.Json
