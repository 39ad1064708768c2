import SignedManifest.Text.Basic
import SignedManifest.Yaml.Cursor
/-!
Scalars: plain text, text in quotes, and blocks of lines. Within the first two, a line break between
words counts as a space, and of several line breaks the first one counts for nothing.
-/
namespace SignedManifest.Yaml

abbrev Scanned := Option (List Char × Cursor)

def joinBreaks : List Char → List Char
  | ['\n'] => [' ']
  | '\n' :: more => more
  | l => l

def joinGap (gap : List Char) : List Char :=
  let breaks := gap.filter isBreak
  if breaks = [] then gap else joinBreaks breaks

/-- Whether a tab stands in the indentation of a later line. The column is known after a break. -/
def tabInIndentation (indent : Int) : (column : Option Nat) → List Char → Bool
  | _, [] => false
  | column, c :: r =>
    if isBreak c then tabInIndentation indent (some 0) r
    else (c == '\t' && column.any fun k => (k : Int) < indent) ||
      tabInIndentation indent (column.map (· + 1)) r

namespace Quoted

def escapes : List (Char × Char) := [('0', '\x00'), ('a', '\x07'), ('b', '\x08'), ('t', '\t'),
  ('\t', '\t'), ('n', '\n'), ('v', '\x0b'), ('f', '\x0c'), ('r', '\r'), ('e', '\x1b'), (' ', ' '),
  ('"', '"'), ('/', '/'), ('\\', '\\'), ('N', '\x85'), ('_', '\u00a0'), ('L', '\u2028'),
  ('P', '\u2029')]

def codeLengths : List (Char × Nat) := [('x', 2), ('u', 4), ('U', 8)]

def codeChar? (length : Nat) (text : List Char) : Option (Char × List Char) := do
  let digits ← (text.take length).mapM Text.hexValue?
  let n := digits.foldl (fun n d => 16 * n + d) 0
  if digits.length = length ∧ Nat.isValidChar n then some (Char.ofNat n, text.drop length) else none

/-- The characters up to a blank, a line break or the closing quote, whether an escaped line break
ended them, and the text after them. -/
def word (single : Bool) : Nat → List Char → Option (List Char × Bool × List Char)
  | 0, _ => none
  | _, [] => some ([], false, [])
  | n + 1, c :: r =>
    let continued (x : Char) (rest : List Char) : Option (List Char × Bool × List Char) := do
      let (xs, escaped, rest) ← word single n rest
      return (x :: xs, escaped, rest)
    if isSpace c || isBreak c then some ([], false, c :: r)
    else if single then
      match c, r with
      | '\'', '\'' :: r => continued '\'' r
      | '\'', _ => some ([], false, c :: r)
      | _, _ => continued c r
    else if c = '"' then some ([], false, c :: r)
    else if c = '\\' then
      match r with
      | [] => none
      | e :: r =>
        if isBreak e then some ([], true, r)
        else
          match escapes.lookup e with
          | some x => continued x r
          | none => do
            let (x, r) ← codeChar? (← codeLengths.lookup e) r
            continued x r
    else continued c r

def body (single : Bool) : Nat → (read : List Char) → Cursor → Scanned
  | 0, _, _ => none
  | n + 1, read, c => do
    if c.atMarker || c.rest.isEmpty then none
    let (xs, escaped, rest) ← word single (c.rest.length + 1) c.rest
    let c := c.skip (c.rest.length - rest.length)
    if c.peek = some (if single then '\'' else '"') then some (read ++ xs, c.next)
    else
      let (gap, c) := c.span fun x => isSpace x || isBreak x
      body single n (read ++ xs ++ if escaped then gap.filter isBreak else joinGap gap) c

end Quoted

def quotedScalar (single : Bool) (c : Cursor) : Scanned :=
  Quoted.body single (c.rest.length + 1) [] c.next

namespace Plain

def isFlowMark (c : Char) : Bool := c == ',' || c == '[' || c == ']' || c == '\x7b' || c == '\x7d'

def word (flow : Bool) : List Char → Option (List Char)
  | [] => some []
  | c :: r =>
    if isSpace c || isBreak c then some []
    else if flow && c == ':' && r.head?.any (fun x => isFlowMark x || x == '?') then none
    else if (c == ':' && r.head?.all (fun x => isSpace x || isBreak x)) || (flow && isFlowMark c) then
      some []
    else (word flow r).map (c :: ·)

/-- Words with what stands between them. `lineEnded` tells whether the last gap had a line break. -/
def body (flow : Bool) (indent : Int) : Nat → (read gap : List Char) → (lineEnded : Bool) → Cursor →
    Option (List Char × Bool × Cursor)
  | 0, _, _, _, _ => none
  | n + 1, read, gap, lineEnded, c => do
    if c.atMarker || c.peek = some '#' then return (read, lineEnded, c)
    let xs ← word flow c.rest
    let c := c.skip xs.length
    let (read, lineEnded) := if xs = [] then (read, lineEnded) else (read ++ joinGap gap ++ xs, false)
    let (gap, after) := c.span fun x => isSpace x || isBreak x
    if gap = [] then return (read, lineEnded, c)
    if tabInIndentation indent none gap then failure
    let lineEnded := gap.any isBreak
    if !flow && (after.column : Int) < indent then return (read, lineEnded, after)
    body flow indent n read gap lineEnded after

end Plain

/-- Plain text, and whether a line ended after it. Its later lines must be indented by `indent`. -/
def plainScalar (flow : Bool) (indent : Int) (c : Cursor) : Option (List Char × Bool × Cursor) :=
  Plain.body flow indent (c.rest.length + 1) [] [] false c

namespace Block

inductive Chomping where
  | clip
  | strip
  | keep
  deriving DecidableEq

def chomping? (c : Cursor) : Option (Chomping × Cursor) :=
  if c.peek = some '+' then some (.keep, c.next)
  else if c.peek = some '-' then some (.strip, c.next)
  else none

def increment? (c : Cursor) : Option (Nat × Cursor) :=
  match c.peek with
  | some d =>
    if d = '0' then none
    else if Text.isDigit d then some (d.toNat - 48, c.next)
    else some (0, c)
  | none => some (0, c)

def header? (c : Cursor) : Option (Chomping × Nat × Cursor) := do
  match chomping? c with
  | some (chomping, c) =>
    let (increment, c) ← increment? c
    return (chomping, increment, c)
  | none =>
    let (increment, c) ← increment? c
    if increment = 0 then return (.clip, 0, c)
    let (chomping, c) := (chomping? c).getD (.clip, c)
    return (chomping, increment, c)

/-- Empty lines, and the indentation of the line after them; an indentation of zero is not yet known.
The answer holds the line breaks and the greatest indentation met. -/
def emptyLines (indent : Nat) : Nat → (breaks : List Char) → (most : Nat) → Cursor →
    Option (List Char × Nat × Cursor)
  | 0, _, _, _ => none
  | n + 1, breaks, most, c =>
    let spaces := (c.rest.takeWhile (· = ' ')).length
    let c := c.skip (if indent = 0 then spaces else min spaces (indent - c.column))
    let most := max most c.column
    if (indent = 0 ∨ c.column < indent) ∧ c.peek = some '\t' then none
    else
      match c.peek with
      | some x => if isBreak x then emptyLines indent n (breaks ++ [x]) most c.next
          else some (breaks, most, c)
      | none => some (breaks, most, c)

/-- Lines of a given indentation. `ended` is the break of the last line, `empty` the breaks after it,
and `indented` tells whether it started with a blank, which keeps its break from being folded. -/
def lines (literal : Bool) (indent : Nat) : Nat → (read ended empty : List Char) →
    (indented : Bool) → Cursor → Option (List Char × List Char × List Char × Cursor)
  | 0, _, _, _, _, _ => none
  | n + 1, read, ended, empty, indented, c =>
    if c.column ≠ indent ∨ c.rest = [] then some (read, ended, empty, c)
    else do
      let starts := c.sees isSpace 0
      let folded := !literal && ended == ['\n'] && !indented && !starts
      let between := if !folded then ended else if empty = [] then [' '] else []
      let (line, c) := c.span (!isBreak ·)
      let (after, _, next) ← emptyLines indent (c.rest.length + 1) [] 0 c.next
      lines literal indent n (read ++ between ++ empty ++ line) (c.peek.toList) after starts next

end Block

def blockScalar (literal : Bool) (outer : Int) (c : Cursor) : Scanned := do
  let (chomping, increment, c) ← Block.header? c.next
  let c ← c.endLine?
  let least := (outer + 1).toNat
  let given := if increment = 0 then 0 else (max outer 0).toNat + increment
  let (empty, most, c) ← Block.emptyLines given (c.rest.length + 1) [] 0 c
  let indent := if given = 0 then max 1 (max most least) else given
  let (read, ended, empty, c) ←
    Block.lines literal indent (c.rest.length + 1) [] [] empty false c
  let tail :=
    match chomping with
    | .strip => []
    | .clip => ended
    | .keep => ended ++ empty
  return (read ++ tail, c)

end SignedManifest.Yaml
