import SignedManifest.Json.Basic
import SignedManifest.Json.Scan
/-!
Codecs: a type's reader beside its written form. A reader knows how many more objects and arrays may
be opened inside each other, and refuses the one too many as malformed.
-/
namespace SignedManifest.Json

/-- Reads a value that may open `depth` levels of objects and arrays. -/
abbrev Reader (α : Type) := (depth : Nat) → Scan α

structure Codec (α : Type) where
  read : Reader α
  write : α → Json

namespace Scan

def enter {α : Type} (body : Reader α) : Reader α
  | 0 => malformed
  | d + 1 => do advance; body d

def nextItem (first : Bool) : Scan Bool := do
  match ← peekPart with
  | some ']' => return false
  | some ',' =>
    if first then return true
    advance
    if (← peekPart) = some ']' then malformed
    return true
  | _ => if first then return true else malformed

def nextKey (first : Bool) : Scan Bool := do
  match ← peekPart with
  | some '\x7d' => return false
  | some ',' =>
    if first then malformed
    advance
    if (← peekPart) = some '"' then return true else malformed
  | some '"' => if first then return true else malformed
  | _ => malformed

def key : Scan String := do advance; string

/-- Items until the array ends; the fuel need only exceed the length of the text. -/
def items {α : Type} (item : Scan α) : Nat → (first : Bool) → List α → Scan (List α)
  | 0, _, _ => malformed
  | n + 1, first, acc => do
    if ← nextItem first then
      let x ← item
      items item n false (x :: acc)
    else return acc.reverse

def entries {α : Type} (value : Scan α) : Nat → (first : Bool) → List (String × α) →
    Scan (List (String × α))
  | 0, _, _ => malformed
  | n + 1, first, acc => do
    if ← nextKey first then
      let k ← key
      punctuation ':'
      let x ← value
      entries value n false ((k, x) :: acc)
    else return acc.reverse

def allItems {α : Type} (item : Scan α) : Scan (List α) := do
  let xs ← items item ((← get).length + 1) true []
  punctuation ']'
  return xs

def allEntries {α : Type} (value : Scan α) : Scan (List (String × α)) := do
  let xs ← entries value ((← get).length + 1) true []
  punctuation '\x7d'
  return xs

def integer {α : Type} (expected : String) (narrow? : Int → Option α) : Scan α := do
  match ← peekPart with
  | some c =>
    if c = '-' ∨ Text.isDigit c then
      let n ← number
      let narrowed (i : Int) : Scan α :=
        match narrow? i with
        | some v => return v
        | none => fail (.invalidValue (.number n) expected)
      match n with
      | .double _ => fail (.invalidType (.number n) expected)
      | .natural i => narrowed i
      | .negative i => narrowed i
    else mismatch expected
  | none => malformed

end Scan

open Scan

namespace Codec

def textAs (expected : String) : Codec String where
  read _ := do
    if (← peekPart) = some '"' then
      advance
      string
    else mismatch expected
  write := .str

def text : Codec String := textAs "a string"

def bool : Codec Bool where
  read _ := do
    match ← peekPart with
    | some 't' => word "true".toList; return true
    | some 'f' => word "false".toList; return false
    | _ => mismatch "a boolean"
  write := .bool

def u32 : Codec UInt32 where
  read _ := integer "u32" fun i =>
    if 0 ≤ i ∧ i < UInt32.size then some (UInt32.ofNat i.toNat) else none
  write n := .num n.toNat

def u64 : Codec UInt64 where
  read _ := integer "u64" fun i =>
    if 0 ≤ i ∧ i < UInt64.size then some (UInt64.ofNat i.toNat) else none
  write n := .num n.toNat

def i64 : Codec Int64 where
  read _ := integer "i64" fun i =>
    if Int64.minValue.toInt ≤ i ∧ i ≤ Int64.maxValue.toInt then some (Int64.ofInt i) else none
  write n := .num n.toInt

def option {α : Type} (c : Codec α) : Codec (Option α) where
  read depth := do
    if (← peekPart) = some 'n' then
      word "null".toList
      return none
    else some <$> c.read depth
  write
    | none => .null
    | some a => c.write a

def list {α : Type} (c : Codec α) : Codec (List α) where
  read depth := do
    if (← peekPart) = some '[' then enter (fun d => allItems (c.read d)) depth
    else mismatch "a sequence"
  write l := .arr (l.map c.write)

/-- An object with keys of any name; the last entry of a key counts. -/
def map {α : Type} (c : Codec α) : Codec (SortedMap String α) where
  read depth := do
    if (← peekPart) = some '\x7b' then
      SortedMap.ofList <$> enter (fun d => allEntries (c.read d)) depth
    else mismatch "a map"
  write m := .obj (m.toList.map fun e => (e.1, c.write e.2))

def variant {α : Type} (known : List (String × α)) (name : String) : Except DataError α :=
  match known.lookup name with
  | some a => .ok a
  | none => .error (.unknownVariant name (known.map (·.1)))

/-- One of several names, alone or as the only key of an object that holds null. -/
def choice {α : Type} [BEq α] (known : List (String × α)) : Codec α where
  read depth := do
    let named : Scan α := do
      match variant known (← string) with
      | .ok a => return a
      | .error e => fail e
    match ← peekPart with
    | some '"' => advance; named
    | some '\x7b' =>
      enter (fun _ => do
        let a ← if (← peekPart) = some '"' then do advance; named else mismatch "variant identifier"
        punctuation ':'
        if (← peekPart) = some 'n' then word "null".toList else mismatch "unit"
        punctuation '\x7d'
        return a) depth
    | _ => malformed
  write a := .str (((known.find? fun e => e.2 == a).map (·.1)).getD "")

end Codec

/-- How many objects and arrays may stand inside each other in a text that is read. -/
def depthLimit : Nat := 127

def Reader.run {α : Type} (r : Reader α) (s : Symbols) : Except ReadError α := do
  let (a, rest) ← (do let a ← r depthLimit; skipBlank; return a : Scan α).run s
  if rest.isEmpty then return a else throw .malformed

def Codec.decode {α : Type} (c : Codec α) (bytes : ByteArray) : Except ReadError α :=
  c.read.run (Symbols.ofBytes bytes)

end SignedManifest.Json
