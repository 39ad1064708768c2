import SignedManifest.SortedMap
import SignedManifest.Text.Basic
/-!
JSON values as the program writes them: no fractions, members in the order given. `Json.text` is the
compact text; `Json.sorted` puts the members of every object into key order. The text meant for people
has one item or member a line, two spaces for each level, and empty arrays and objects kept together.
-/
namespace SignedManifest

inductive Json where
  | null
  | bool (value : Bool)
  | num (value : Int)
  | str (value : String)
  | arr (items : List Json)
  | obj (members : List (String × Json))
  deriving Inhabited

namespace Json

/-- One character inside a JSON string: the two-character escapes where they exist, `\u00xx` for the
other controls, and everything else as it is. -/
def escapedChar (c : Char) : List Char :=
  if c = '"' then ['\\', '"']
  else if c = '\\' then ['\\', '\\']
  else if c = '\x08' then ['\\', 'b']
  else if c = '\t' then ['\\', 't']
  else if c = '\n' then ['\\', 'n']
  else if c = '\x0c' then ['\\', 'f']
  else if c = '\r' then ['\\', 'r']
  else if c.toNat < 0x20 then
    ['\\', 'u', '0', '0', Text.hexDigit (c.toNat / 16), Text.hexDigit (c.toNat % 16)]
  else [c]

def stringChars (s : String) : List Char :=
  '"' :: s.toList.flatMap escapedChar ++ ['"']

mutual

def chars : Json → List Char
  | null => "null".toList
  | bool true => "true".toList
  | bool false => "false".toList
  | num n => (toString n).toList
  | str s => stringChars s
  | arr items => '[' :: itemChars items ++ [']']
  | obj members => '\x7b' :: memberChars members ++ ['\x7d']

def itemChars : List Json → List Char
  | [] => []
  | [j] => j.chars
  | j :: r => j.chars ++ ',' :: itemChars r

def memberChars : List (String × Json) → List Char
  | [] => []
  | [(k, j)] => stringChars k ++ ':' :: j.chars
  | (k, j) :: r => stringChars k ++ ':' :: j.chars ++ ',' :: memberChars r

end

def text (j : Json) : String := String.ofList j.chars

mutual

def sorted : Json → Json
  | arr items => arr (sortedItems items)
  | obj members => obj (SortedMap.ofList (sortedMembers members)).toList
  | j => j

def sortedItems : List Json → List Json
  | [] => []
  | j :: r => j.sorted :: sortedItems r

def sortedMembers : List (String × Json) → List (String × Json)
  | [] => []
  | (k, j) :: r => (k, j.sorted) :: sortedMembers r

end

mutual

def depth : Json → Nat
  | arr items => itemsDepth items + 1
  | obj members => membersDepth members + 1
  | _ => 0

def itemsDepth : List Json → Nat
  | [] => 0
  | j :: r => max j.depth (itemsDepth r)

def membersDepth : List (String × Json) → Nat
  | [] => 0
  | (_, j) :: r => max j.depth (membersDepth r)

end

def ofText? : Option String → Json
  | none => null
  | some s => str s

/-! ### Text for people -/

def lineBreak (level : Nat) : List Char := '\n' :: List.replicate (2 * level) ' '

mutual

def prettyChars (level : Nat) : Json → List Char
  | arr [] => ['[', ']']
  | arr (j :: r) => '[' :: prettyItems (level + 1) (j :: r) ++ lineBreak level ++ [']']
  | obj [] => ['\x7b', '\x7d']
  | obj (m :: r) => '\x7b' :: prettyMembers (level + 1) (m :: r) ++ lineBreak level ++ ['\x7d']
  | j => j.chars

def prettyItems (level : Nat) : List Json → List Char
  | [] => []
  | [j] => lineBreak level ++ j.prettyChars level
  | j :: r => lineBreak level ++ j.prettyChars level ++ ',' :: prettyItems level r

def prettyMembers (level : Nat) : List (String × Json) → List Char
  | [] => []
  | [(k, j)] => lineBreak level ++ stringChars k ++ [':', ' '] ++ j.prettyChars level
  | (k, j) :: r =>
    lineBreak level ++ stringChars k ++ [':', ' '] ++ j.prettyChars level ++
      ',' :: prettyMembers level r

end

def pretty (j : Json) : String := String.ofList (j.prettyChars 0)

end Json

end SignedManifest
