import SignedManifest.Json.Codec
/-!
Records. A layout lists the fields of a record type in declaration order, each with its name, its
codec, and what it is worth where the text leaves it out. One reader and one writer serve all
layouts: an object may bring the members in any order and others beside them, each known one at most
once; an array brings the values in declaration order.
-/
namespace SignedManifest.Json

open Scan

structure Field where
  name : String
  Value : Type
  read : Reader Value
  /-- The written value, or none where the member is left out. -/
  write : Value → Option Json
  /-- The value of a member that an object does not have. -/
  absent : Option Value
  /-- The value of an item that an array ends before. -/
  beyond : Option Value

namespace Field

def required {α : Type} (name : String) (c : Codec α) : Field where
  name; Value := α; read := c.read; write a := some (c.write a); absent := none; beyond := none

def defaulted {α : Type} (name : String) (c : Codec α) (a : α) : Field where
  name; Value := α; read := c.read; write a := some (c.write a); absent := some a; beyond := some a

/-- A field that is null or missing where there is no value, and left out on writing. -/
def optional {α : Type} (name : String) (c : Codec α) : Field where
  name
  Value := Option α
  read := c.option.read
  write a := a.map c.write
  absent := some none
  beyond := some none

/-- A field that an object may lack, always written, with null for no value. -/
def nullable {α : Type} (name : String) (c : Codec α) : Field where
  name
  Value := Option α
  read := c.option.read
  write a := some (c.option.write a)
  absent := some none
  beyond := none

end Field

@[reducible] def Values : List Field → Type
  | [] => Unit
  | f :: fs => f.Value × Values fs

@[reducible] def Slots : List Field → Type
  | [] => Unit
  | f :: fs => Option f.Value × Slots fs

def Slots.empty : (fs : List Field) → Slots fs
  | [] => ()
  | _ :: fs => (none, Slots.empty fs)

/-- Reads the member of a given key. A field that has its value already refuses another one before
looking at it; the value of an unknown key is passed over. -/
def Slots.readMember : (fs : List Field) → String → Reader (Slots fs → Slots fs)
  | [], _, _ => do
    punctuation ':'
    skipValue
    return id
  | f :: fs, k, depth =>
    if f.name = k then do
      punctuation ':'
      let v ← f.read depth
      return fun slots => (some v, slots.2)
    else do
      let update ← Slots.readMember fs k depth
      return fun slots => (slots.1, update slots.2)

def Slots.filled : (fs : List Field) → Slots fs → String → Bool
  | [], _, _ => false
  | f :: fs, slots, k => if f.name = k then slots.1.isSome else Slots.filled fs slots.2 k

/-- The values, or the first field in declaration order that has none and cannot do without. -/
def Slots.finish : (fs : List Field) → Slots fs → Except DataError (Values fs)
  | [], _ => .ok ()
  | f :: fs, slots =>
    match slots.1.or f.absent with
    | none => .error (.missingField f.name)
    | some v => (Slots.finish fs slots.2).map (v, ·)

def Slots.readMembers (fs : List Field) (depth : Nat) : Nat → (first : Bool) → Slots fs →
    Scan (Slots fs)
  | 0, _, _ => malformed
  | n + 1, first, slots => do
    if ← nextKey first then
      let k ← key
      if Slots.filled fs slots k then fail (.duplicateField k)
      let update ← Slots.readMember fs k depth
      Slots.readMembers fs depth n false (update slots)
    else return slots

def Values.readItems (depth : Nat) (expected : String) : (fs : List Field) → (index : Nat) →
    (first : Bool) → Scan (Values fs)
  | [], _, _ => return ()
  | f :: fs, index, first => do
    if ← nextItem first then
      let v ← f.read depth
      return (v, ← Values.readItems depth expected fs (index + 1) false)
    else
      match f.beyond with
      | some v => return (v, ← Values.readItems depth expected fs (index + 1) first)
      | none => fail (.invalidLength index expected)

def Values.members : (fs : List Field) → Values fs → List (String × Json)
  | [], _ => []
  | f :: fs, values =>
    match f.write values.1 with
    | none => Values.members fs values.2
    | some j => (f.name, j) :: Values.members fs values.2

structure Layout (α : Type) where
  name : String
  fields : List Field
  make : Values fields → α
  parts : α → Values fields

namespace Layout

variable {α : Type} (l : Layout α)

def title : String := "struct " ++ l.name

def readObject : Reader α := enter fun depth => do
  let slots ← Slots.readMembers l.fields depth ((← get).length + 1) true (Slots.empty l.fields)
  match Slots.finish l.fields slots with
  | .error e => fail e
  | .ok values =>
    punctuation '\x7d'
    return l.make values

def readArray : Reader α := enter fun depth => do
  let expected := l.title ++ " with " ++ elements l.fields.length
  let values ← Values.readItems depth expected l.fields 0 true
  punctuation ']'
  return l.make values

def read : Reader α := fun depth => do
  match ← peekPart with
  | some '\x7b' => l.readObject depth
  | some '[' => l.readArray depth
  | _ => mismatch l.title

def json (a : α) : Json := .obj (Values.members l.fields (l.parts a))

def codec : Codec α := ⟨l.read, l.json⟩

end Layout

end SignedManifest.Json
