/-!
Walking through a YAML text, with the line and the column of every character. The usual line breaks
are turned into line feeds before; two rarer ones keep their characters.
-/
namespace SignedManifest.Yaml

/-- Characters that a text may hold: no controls but tab and line breaks, and no noncharacters. -/
def isAllowed (c : Char) : Bool :=
  let n := c.toNat
  n == 0x09 || n == 0x0a || n == 0x0d || (0x20 ≤ n && n ≤ 0x7e) || n == 0x85 ||
    (0xa0 ≤ n && n ≠ 0xfffe && n ≠ 0xffff)

def normalized : List Char → List Char
  | [] => []
  | '\r' :: '\n' :: r => '\n' :: normalized r
  | c :: r => (if c = '\r' ∨ c = '\x85' then '\n' else c) :: normalized r

def isBreak (c : Char) : Bool := c == '\n' || c == '\u2028' || c == '\u2029'

def isSpace (c : Char) : Bool := c == ' ' || c == '\t'

def isNameChar (c : Char) : Bool :=
  ('0' ≤ c && c ≤ '9') || ('A' ≤ c && c ≤ 'Z') || ('a' ≤ c && c ≤ 'z') || c == '_' || c == '-'

structure Cursor where
  rest : List Char
  line : Nat := 0
  column : Nat := 0
  /-- How many characters were passed. -/
  index : Nat := 0

namespace Cursor

def next (c : Cursor) : Cursor :=
  match c.rest with
  | [] => c
  | x :: r =>
    if isBreak x then ⟨r, c.line + 1, 0, c.index + 1⟩ else ⟨r, c.line, c.column + 1, c.index + 1⟩

def skip (c : Cursor) : Nat → Cursor
  | 0 => c
  | n + 1 => c.next.skip n

def span (c : Cursor) (p : Char → Bool) : List Char × Cursor :=
  let taken := c.rest.takeWhile p
  (taken, c.skip taken.length)

def skipWhile (c : Cursor) (p : Char → Bool) : Cursor := (c.span p).2

def peek (c : Cursor) : Option Char := c.rest.head?

def sees (c : Cursor) (p : Char → Bool) (ahead : Nat) : Bool := (c.rest[ahead]?).any p

def gapAt (c : Cursor) (ahead : Nat) : Bool :=
  (c.rest[ahead]?).all fun x => isSpace x || isBreak x

def startsWith (c : Cursor) (word : List Char) : Bool :=
  c.column == 0 && word.isPrefixOf c.rest && c.gapAt 3

def atMarker (c : Cursor) : Bool := c.startsWith ['-', '-', '-'] || c.startsWith ['.', '.', '.']

def skipComment (c : Cursor) : Cursor :=
  if c.peek = some '#' then c.skipWhile (!isBreak ·) else c

/-- The place after blanks and a comment, and after the line break that must follow them. -/
def endLine? (c : Cursor) : Option Cursor :=
  let c := (c.skipWhile isSpace).skipComment
  match c.peek with
  | none => some c
  | some x => if isBreak x then some c.next else none

end Cursor

end SignedManifest.Yaml
