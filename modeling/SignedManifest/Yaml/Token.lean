import SignedManifest.Yaml.Scalar
/-!
Tokens of a YAML text. Indentation opens and closes blocks. That a value was a key shows only at the
colon after it, so the places where a key may have started are kept, one for each level of brackets,
and the tokens that were missing there are put in afterwards.
-/
namespace SignedManifest.Yaml

inductive Token where
  | version (major minor : Nat)
  | tagShorthand (handle expansion : String)
  | documentStart
  | documentEnd
  | streamEnd
  | blockSequenceStart
  | blockMappingStart
  | blockEnd
  | sequenceOpen
  | sequenceClose
  | mappingOpen
  | mappingClose
  | item
  | comma
  | key
  | value
  | alias (name : String)
  | anchor (name : String)
  | tag (handle suffix : String)
  | scalar (plain : Bool) (text : String)
  deriving DecidableEq, Repr

structure KeyPlace where
  /-- The block would be broken without a key here. -/
  required : Bool
  /-- The number of tokens before. -/
  position : Nat
  line : Nat
  column : Nat
  index : Nat

structure Tokenizer where
  cursor : Cursor
  tokens : List Token := []
  /-- The column of the innermost block, less than zero outside all blocks. -/
  indent : Int := -1
  outerIndents : List Int := []
  /-- The place of a possible key, outside all brackets or in the innermost ones. -/
  place : Option KeyPlace := none
  /-- The same for each outer level of brackets. -/
  outerPlaces : List (Option KeyPlace) := []
  /-- Whether a key may start at the next token. -/
  keyAllowed : Bool := true

abbrev Tokenize := StateT Tokenizer Option

namespace Tokenizer

def inFlow (t : Tokenizer) : Bool := !t.outerPlaces.isEmpty

def emit (token : Token) : Tokenize Unit := modify fun t => { t with tokens := t.tokens ++ [token] }

def advance (n : Nat) : Tokenize Unit := modify fun t => { t with cursor := t.cursor.skip n }

def allowKey (allowed : Bool) : Tokenize Unit := modify fun t => { t with keyAllowed := allowed }

/-- Opens a block at a column unless one that far right is open already; its first token goes to a
position among the tokens. -/
def openBlock (column position : Nat) (token : Token) : Tokenize Unit := modify fun t =>
  if !t.inFlow ∧ t.indent < Int.ofNat column then
    { t with
      indent := Int.ofNat column
      outerIndents := t.indent :: t.outerIndents
      tokens := t.tokens.take position ++ token :: t.tokens.drop position }
  else t

def openBlockHere (token : Token) : Tokenize Unit := do
  let t ← get
  openBlock t.cursor.column t.tokens.length token

def closeBlocks (column : Int) : Tokenize Unit := modify fun t =>
  if t.inFlow then t else close t t.outerIndents
where
  close (t : Tokenizer) : List Int → Tokenizer
    | [] => t
    | outer :: more =>
      if column < t.indent then
        close { t with tokens := t.tokens ++ [.blockEnd], indent := outer, outerIndents := more } more
      else t

/-- Forgets the place of a possible key. A required one may not be lost. -/
def dropPlace : Tokenize Unit := do
  if (← get).place.any (·.required) then failure
  modify fun t => { t with place := none }

def markPlace : Tokenize Unit := do
  let t ← get
  if t.keyAllowed then
    dropPlace
    let c := t.cursor
    modify fun t => { t with
      place := some ⟨!t.inFlow && t.indent == c.column, t.tokens.length, c.line, c.column, c.index⟩ }

def keyLimit : Nat := 1024

/-- A key does not go past the end of its line. -/
def isStale (c : Cursor) (p : KeyPlace) : Bool := p.line < c.line || p.index + keyLimit < c.index

def dropStale : Tokenize Unit := do
  let t ← get
  let stale := isStale t.cursor
  if (t.place :: t.outerPlaces).any fun p => p.any fun p => stale p && p.required then failure
  set { t with
    place := t.place.filter (!stale ·)
    outerPlaces := t.outerPlaces.map (Option.filter (!stale ·)) }

/-- Passes over blanks, comments and line breaks. A tab counts as a blank where no key may start, and
a byte order mark may start a line, in which it takes a column. -/
def skipBetween : Nat → Tokenizer → Tokenizer
  | 0, t => t
  | n + 1, t =>
    let c := if t.cursor.column = 0 ∧ t.cursor.peek = some '\ufeff' then t.cursor.next else t.cursor
    let c := c.skipWhile fun x => x == ' ' || (x == '\t' && (t.inFlow || !t.keyAllowed))
    let c := c.skipComment
    if c.sees isBreak 0 then
      skipBetween n { t with cursor := c.next, keyAllowed := t.keyAllowed || !t.inFlow }
    else { t with cursor := c }

def takeWhile (p : Char → Bool) : Tokenize (List Char) := do
  let t ← get
  let (xs, c) := t.cursor.span p
  set { t with cursor := c }
  return xs

def peek : Tokenize (Option Char) := return (← get).cursor.peek

def expect (x : Char) : Tokenize Unit := do
  if (← peek) = some x then advance 1 else failure

def atGap : Tokenize Bool := return (← get).cursor.gapAt 0

/-- The handle of a tag: one exclamation mark, or a name between two. -/
def tagHandle : Tokenize (List Char) := do
  expect '!'
  let name ← takeWhile isNameChar
  if (← peek) = some '!' then
    advance 1
    return '!' :: name ++ ['!']
  else return '!' :: name

def isTagChar (verbatim : Bool) (c : Char) : Bool :=
  isNameChar c || ";/?:@&=+$.%!~*'()".toList.contains c ||
    (verbatim && (c == ',' || c == '[' || c == ']'))

def tagBytes : List Char → Option (List UInt8)
  | [] => some []
  | '%' :: a :: b :: r => do
    return UInt8.ofNat ((← Text.hexValue? a) * 16 + (← Text.hexValue? b)) :: (← tagBytes r)
  | c :: r => if c = '%' then none else do return c.toString.toUTF8.toList ++ (← tagBytes r)

def tagRest (verbatim : Bool) (head : List Char) : Tokenize String := do
  let bytes ← tagBytes (head ++ (← takeWhile (isTagChar verbatim)))
  String.fromUTF8? ⟨bytes.toArray⟩

def scanTag : Tokenize Unit := do
  if (← get).cursor.sees (· == '<') 1 then
    advance 2
    let suffix ← tagRest true []
    if suffix = "" then failure
    expect '>'
    emit (.tag "" suffix)
  else
    let handle ← tagHandle
    if 1 < handle.length ∧ handle.getLast? = some '!' then
      let suffix ← tagRest false []
      if suffix = "" then failure
      emit (.tag (String.ofList handle) suffix)
    else
      let suffix ← tagRest false handle.tail
      emit (if suffix = "" then .tag "" "!" else .tag "!" suffix)
  let t ← get
  unless t.cursor.gapAt 0 || (t.inFlow && t.cursor.peek == some ',') do failure

def scanName : Tokenize String := do
  advance 1
  let name ← takeWhile isNameChar
  let ended := match ← peek with
    | none => true
    | some c => isSpace c || isBreak c || "?:,]\x7d%@`".toList.contains c
  if name = [] ∨ !ended then failure
  return String.ofList name

def versionNumber : Tokenize Nat := do
  let digits ← takeWhile Text.isDigit
  if digits = [] ∨ 9 < digits.length then failure
  return Text.natOfDigits digits

def scanDirective : Tokenize Unit := do
  advance 1
  let name := String.ofList (← takeWhile isNameChar)
  if !(← atGap) then failure
  let _ ← takeWhile isSpace
  if name = "YAML" then
    let major ← versionNumber
    expect '.'
    emit (.version major (← versionNumber))
  else if name = "TAG" then
    let handle ← tagHandle
    unless handle.length = 1 ∨ handle.getLast? = some '!' do failure
    if (← takeWhile isSpace) = [] then failure
    let expansion ← tagRest true []
    if expansion = "" ∨ !(← atGap) then failure
    emit (.tagShorthand (String.ofList handle) expansion)
  else failure
  let t ← get
  let some c := t.cursor.endLine? | failure
  set { t with cursor := c }

def documentMark (token : Token) : Tokenize Unit := do
  closeBlocks (-1)
  dropPlace
  allowKey false
  advance 3
  emit token

def openFlow (token : Token) : Tokenize Unit := do
  markPlace
  modify fun t => { t with place := none, outerPlaces := t.place :: t.outerPlaces }
  allowKey true
  advance 1
  emit token

def closeFlow (token : Token) : Tokenize Unit := do
  dropPlace
  modify fun t =>
    match t.outerPlaces with
    | [] => t
    | p :: more => { t with place := p, outerPlaces := more }
  allowKey false
  advance 1
  emit token

def commaMark : Tokenize Unit := do
  dropPlace
  allowKey true
  advance 1
  emit .comma

def itemMark : Tokenize Unit := do
  let t ← get
  if !t.inFlow then
    if !t.keyAllowed then failure
    openBlockHere .blockSequenceStart
  dropPlace
  allowKey true
  advance 1
  emit .item

def keyMark : Tokenize Unit := do
  let t ← get
  if !t.inFlow then
    if !t.keyAllowed then failure
    openBlockHere .blockMappingStart
  dropPlace
  allowKey !t.inFlow
  advance 1
  emit .key

/-- The colon of a value. If a key may have started at a place, it did. -/
def valueMark : Tokenize Unit := do
  let t ← get
  match t.place with
  | some p =>
    set { t with tokens := t.tokens.take p.position ++ Token.key :: t.tokens.drop p.position }
    openBlock p.column p.position .blockMappingStart
    modify fun t => { t with place := none, keyAllowed := false }
  | none =>
    if !t.inFlow then
      if !t.keyAllowed then failure
      openBlockHere .blockMappingStart
    allowKey !t.inFlow
  advance 1
  emit .value

def keyLike (body : Tokenize Unit) : Tokenize Unit := do
  markPlace
  allowKey false
  body

def scanQuoted (single : Bool) : Tokenize Unit := do
  let t ← get
  let some (text, c) := quotedScalar single t.cursor | failure
  set { t with cursor := c }
  emit (.scalar false (String.ofList text))

def scanPlain : Tokenize Unit := do
  let t ← get
  let some (text, lineEnded, c) := plainScalar t.inFlow (t.indent + 1) t.cursor | failure
  set { t with cursor := c, keyAllowed := t.keyAllowed || lineEnded }
  emit (.scalar true (String.ofList text))

def scanBlock (literal : Bool) : Tokenize Unit := do
  dropPlace
  let t ← get
  let some (text, c) := blockScalar literal t.indent t.cursor | failure
  set { t with cursor := c, keyAllowed := true }
  emit (.scalar false (String.ofList text))

def isMark (c : Char) : Bool := isSpace c || "-?:,[]\x7b\x7d#&*!|>'\"%@`".toList.contains c

def scanFrom (x : Char) : Tokenize Unit := do
  let t ← get
  let flow := t.inFlow
  let alone := t.cursor.gapAt 1
  if x = '[' then openFlow .sequenceOpen
  else if x = '\x7b' then openFlow .mappingOpen
  else if x = ']' then closeFlow .sequenceClose
  else if x = '\x7d' then closeFlow .mappingClose
  else if x = ',' then commaMark
  else if x = '-' ∧ alone then itemMark
  else if x = '?' ∧ (flow ∨ alone) then keyMark
  else if x = ':' ∧ (flow ∨ alone) then valueMark
  else if x = '*' then keyLike do emit (.alias (← scanName))
  else if x = '&' then keyLike do emit (.anchor (← scanName))
  else if x = '!' then keyLike scanTag
  else if x = '|' ∧ !flow then scanBlock true
  else if x = '>' ∧ !flow then scanBlock false
  else if x = '\'' then keyLike (scanQuoted true)
  else if x = '"' then keyLike (scanQuoted false)
  else if !isMark x || x == '-' || (!flow && (x == '?' || x == ':')) then keyLike scanPlain
  else failure

def step : Tokenize Bool := do
  modify fun t => skipBetween (t.cursor.rest.length + 1) t
  dropStale
  let t ← get
  closeBlocks t.cursor.column
  match t.cursor.peek with
  | none =>
    closeBlocks (-1)
    dropPlace
    emit .streamEnd
    return false
  | some x =>
    if t.cursor.column = 0 ∧ x = '%' then
      closeBlocks (-1)
      dropPlace
      allowKey false
      scanDirective
    else if t.cursor.startsWith ['-', '-', '-'] then documentMark .documentStart
    else if t.cursor.startsWith ['.', '.', '.'] then documentMark .documentEnd
    else scanFrom x
    return true

def run : Nat → Tokenize Unit
  | 0 => failure
  | n + 1 => do if ← step then run n

end Tokenizer

def tokens? (text : String) : Option (List Token) := do
  let cs := text.toList
  if !cs.all isAllowed then none
  let (_, t) ← (Tokenizer.run (2 * cs.length + 2)).run { cursor := { rest := normalized cs } }
  return t.tokens

end SignedManifest.Yaml
