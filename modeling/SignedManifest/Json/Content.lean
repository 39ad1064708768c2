import SignedManifest.Json.Codec
/-!
Whole values of any kind, for the one record whose form depends on a member that may come last: the
text is read to the end of the value before the value is looked at.
-/
namespace SignedManifest.Json

open Scan

inductive Content where
  | null
  | bool (value : Bool)
  | number (value : Number)
  | string (value : String)
  | sequence (items : List Content)
  | map (entries : List (String × Content))
  deriving Inhabited

namespace Content

def found : Content → Found
  | null => .null
  | bool b => .bool b
  | number n => .number n
  | string s => .string s
  | sequence _ => .sequence
  | map _ => .map

def readWith (inner : Option (Scan Content)) : Scan Content := do
  match ← peekPart with
  | some 'n' => word "null".toList; return null
  | some 't' => word "true".toList; return bool true
  | some 'f' => word "false".toList; return bool false
  | some '"' => advance; return string (← Scan.string)
  | some '[' =>
    match inner with
    | none => malformed
    | some value => advance; return sequence (← allItems value)
  | some '\x7b' =>
    match inner with
    | none => malformed
    | some value => advance; return map (← allEntries value)
  | some c => if c = '-' ∨ Text.isDigit c then return number (← Scan.number) else malformed
  | none => malformed

def read : Reader Content
  | 0 => readWith none
  | d + 1 => readWith (some (read d))

def text : Content → Except DataError String
  | string s => .ok s
  | c => .error (.invalidType c.found "a string")

def choice {α : Type} (known : List (String × α)) : Content → Except DataError α
  | string s => Codec.variant known s
  | map [(k, v)] => do
    let a ← Codec.variant known k
    match v with
    | null | map [] => return a
    | c => throw (.invalidType c.found "unit")
  | map _ => .error (.invalidValue .map "map with a single key")
  | c => .error (.invalidType c.found "string or map")

end Content

end SignedManifest.Json
