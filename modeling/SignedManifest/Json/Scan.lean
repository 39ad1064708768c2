import SignedManifest.Json.Error
import SignedManifest.Json.Symbols
/-!
Reading JSON from the left: blanks, words, strings and numbers, and passing over a value that nobody
wants. A wanted string must decode; a skipped one only has to end.
-/
namespace SignedManifest.Json

abbrev Scan := StateT Symbols (Except ReadError)

namespace Scan

def malformed {α : Type} : Scan α := throw .malformed

def fail {α : Type} (e : DataError) : Scan α := throw (.data e)

def isBlank (s : Option Char) : Bool :=
  s == some ' ' || s == some '\n' || s == some '\t' || s == some '\r'

def skipBlank : Scan Unit := modify (List.dropWhile isBlank)

/-- The next symbol, unread; `none` also at the end. -/
def peek : Scan (Option Char) := return (← get).head?.join

def peekPart : Scan (Option Char) := do skipBlank; peek

def advance : Scan Unit := modify List.tail

def word : List Char → Scan Unit
  | [] => pure ()
  | c :: r => do
    if (← peek) = some c then advance; word r
    else malformed

def punctuation (c : Char) : Scan Unit := do
  if (← peekPart) = some c then advance else malformed

/-- Where the reader of a string stands: among plain characters, after a backslash, with hexadecimal
digits to come (for the second half of a surrogate pair if `high` is there), or before the escape
that has to follow a high surrogate. -/
inductive StringState where
  | plain
  | escape
  | digits (left value : Nat) (high : Option Nat)
  | lowEscape (high : Nat)
  | lowMark (high : Nat)
  deriving DecidableEq

def shortEscape? (c : Char) : Option Char :=
  if c = '"' then some '"'
  else if c = '\\' then some '\\'
  else if c = '/' then some '/'
  else if c = 'b' then some '\x08'
  else if c = 'f' then some '\x0c'
  else if c = 'n' then some '\n'
  else if c = 'r' then some '\r'
  else if c = 't' then some '\t'
  else none

/-- What a finished group of four hexadecimal digits gives: a character, or the wish for the other
half of a pair. A half without its other half is malformed. -/
def afterDigits (value : Nat) : Option Nat → Option (Option Char × StringState)
  | none =>
    if 0xdc00 ≤ value ∧ value ≤ 0xdfff then none
    else if 0xd800 ≤ value ∧ value ≤ 0xdbff then some (none, .lowEscape value)
    else some (some (Char.ofNat value), .plain)
  | some high =>
    if 0xdc00 ≤ value ∧ value ≤ 0xdfff then
      some (some (Char.ofNat (0x10000 + (high - 0xd800) * 0x400 + (value - 0xdc00))), .plain)
    else none

def stringBody (acc : List Char) : StringState → Symbols → Except ReadError (String × Symbols)
  | _, [] => .error .malformed
  | _, none :: _ => .error .malformed
  | .plain, some c :: r =>
    if c = '"' then .ok (String.ofList acc.reverse, r)
    else if c = '\\' then stringBody acc .escape r
    else if c.toNat < 0x20 then .error .malformed
    else stringBody (c :: acc) .plain r
  | .escape, some c :: r =>
    if c = 'u' then stringBody acc (.digits 4 0 none) r
    else
      match shortEscape? c with
      | some d => stringBody (d :: acc) .plain r
      | none => .error .malformed
  | .digits left value high, some c :: r =>
    match Text.hexValue? c with
    | none => .error .malformed
    | some d =>
      let value := 16 * value + d
      if left ≤ 1 then
        match afterDigits value high with
        | none => .error .malformed
        | some (some c, state) => stringBody (c :: acc) state r
        | some (none, state) => stringBody acc state r
      else stringBody acc (.digits (left - 1) value high) r
  | .lowEscape high, some c :: r =>
    if c = '\\' then stringBody acc (.lowMark high) r else .error .malformed
  | .lowMark high, some c :: r =>
    if c = 'u' then stringBody acc (.digits 4 0 (some high)) r else .error .malformed

def string : Scan String := fun s => stringBody [] .plain s

/-- What follows the closing quote of a string that nobody wants: escapes must be known and controls
must be escaped, but nothing has to decode. -/
def skipStringBody : StringState → Symbols → Except ReadError Symbols
  | _, [] => .error .malformed
  | .plain, some c :: r =>
    if c = '"' then .ok r
    else if c = '\\' then skipStringBody .escape r
    else if c.toNat < 0x20 then .error .malformed
    else skipStringBody .plain r
  | .plain, none :: r => skipStringBody .plain r
  | .escape, some c :: r =>
    if c = 'u' then skipStringBody (.digits 4 0 none) r
    else if (shortEscape? c).isSome then skipStringBody .plain r
    else .error .malformed
  | .digits left _ _, some c :: r =>
    if (Text.hexValue? c).isNone then .error .malformed
    else if left ≤ 1 then skipStringBody .plain r
    else skipStringBody (.digits (left - 1) 0 none) r
  | _, _ => .error .malformed

def skipString : Scan Unit := fun s => (skipStringBody .plain s).map ((), ·)

def digits : Scan (List Char) := fun s =>
  let isDigit (x : Option Char) : Bool := x.any Text.isDigit
  .ok ((s.takeWhile isDigit).reduceOption, s.dropWhile isDigit)

def digits1 : Scan (List Char) := do
  let ds ← digits
  if ds.isEmpty then malformed else return ds

structure Numeral where
  whole : List Char
  fraction : Option (List Char)
  /-- Whether the exponent is negative, and its digits. -/
  exponent : Option (Bool × List Char)

/-- The parts of a numeral: no leading zero, and digits after the point and after the exponent
mark. -/
def numeral : Scan Numeral := do
  let whole ← digits1
  if whole.head? = some '0' ∧ whole.length > 1 then malformed
  let fraction ← if (← peek) = some '.' then do advance; some <$> digits1 else pure none
  let mark ← peek
  let exponent ←
    if mark = some 'e' ∨ mark = some 'E' then do
      advance
      let sign ← peek
      if sign = some '+' ∨ sign = some '-' then advance
      some <$> (sign == some '-', ·) <$> digits1
    else pure none
  return ⟨whole, fraction, exponent⟩

/-- Adds digits to a significand while it stays below `2 ^ 64`; the digits that no longer fit are
left over. -/
def accumulate (significand : Nat) : List Char → Nat × List Char
  | [] => (significand, [])
  | c :: r =>
    let next := 10 * significand + (c.toNat - 48)
    if next < UInt64.size then accumulate next r else (significand, c :: r)

def scale (x : Float) (exponent : Int) : Nat → Option Float
  | 0 => some x
  | n + 1 =>
    if exponent.natAbs ≤ 308 then
      let power := Float.ofScientific 1 false exponent.natAbs
      if exponent < 0 then some (x / power)
      else if (x * power).isInf then none
      else some (x * power)
    else if x == 0 then some x
    else if exponent ≥ 0 then none
    else scale (x / Float.ofScientific 1 false 308) (exponent + 308) n

/-- The binary64 value of a numeral. The digits that fit a 64-bit significand count, the others only
by their place; none if the value is too large. -/
def Numeral.double? (negative : Bool) (n : Numeral) : Option Nat :=
  let (first, dropped) := accumulate 0 n.whole
  let fraction := n.fraction.getD []
  let (significand, unread) := accumulate first fraction
  let place : Int := dropped.length - (fraction.length - unread.length : Nat)
  let exponent? : Option Int :=
    match n.exponent with
    | none => some place
    | some (down, ds) =>
      let e := Text.natOfDigits ds
      if e > Int32.maxValue.toInt then none
      else
        let shifted := if down then place - e else place + e
        some (max Int32.minValue.toInt (min Int32.maxValue.toInt shifted))
  let signed (x : Float) : Nat := (if negative then -x else x).toBits.toNat
  match exponent? with
  | some e => (scale (UInt64.ofNat significand).toFloat e 4).map signed
  | none => if significand ≠ 0 ∧ n.exponent.any (!·.1) then none else some (signed 0)

/-- The value of a numeral: integers where they fit 64 bits, binary64 elsewhere; a negative zero is
binary64. -/
def Numeral.value? (negative : Bool) (n : Numeral) : Option Number :=
  let whole := Text.natOfDigits n.whole
  if n.fraction.isNone ∧ n.exponent.isNone ∧ whole < UInt64.size then
    if !negative then some (.natural whole)
    else if 0 < whole ∧ whole ≤ 1 <<< 63 then some (.negative (-whole))
    else some (.double (-(UInt64.ofNat whole).toFloat).toBits.toNat)
  else (n.double? negative).map .double

def number : Scan Number := do
  let negative := (← peek) == some '-'
  if negative then advance
  let n ← numeral
  match n.value? negative with
  | some v => return v
  | none => malformed

inductive Container where
  | array
  | object
  deriving DecidableEq

def skipKey : Scan Unit := do
  punctuation '"'
  skipString
  punctuation ':'

/-- Passes over a value, or over what follows one inside the open containers. Each round reads at
least one symbol or ends, so the fuel need only exceed the length of the text. -/
def skip : Nat → (after : Bool) → List Container → Scan Unit
  | 0, _, _ => malformed
  | n + 1, false, stack => do
    match ← peekPart with
    | some 'n' => word "null".toList; skip n true stack
    | some 't' => word "true".toList; skip n true stack
    | some 'f' => word "false".toList; skip n true stack
    | some '"' => advance; skipString; skip n true stack
    | some '[' =>
      advance
      if (← peekPart) = some ']' then advance; skip n true stack
      else skip n false (.array :: stack)
    | some '\x7b' =>
      advance
      if (← peekPart) = some '\x7d' then advance; skip n true stack
      else skipKey; skip n false (.object :: stack)
    | some c =>
      if c = '-' ∨ Text.isDigit c then
        if c = '-' then advance
        let _ ← numeral
        skip n true stack
      else malformed
    | none => malformed
  | _ + 1, true, [] => pure ()
  | n + 1, true, .array :: stack => do
    match ← peekPart with
    | some ',' => advance; skip n false (.array :: stack)
    | some ']' => advance; skip n true stack
    | _ => malformed
  | n + 1, true, .object :: stack => do
    match ← peekPart with
    | some ',' => advance; skipKey; skip n false (.object :: stack)
    | some '\x7d' => advance; skip n true stack
    | _ => malformed

def skipValue : Scan Unit := do skip (2 * (← get).length + 2) false []

/-- The value that stands next is of another kind than the expected one. Scalars are read first, so
that a fault inside them comes before the complaint; containers are not opened. -/
def mismatch {α : Type} (expected : String) : Scan α := do
  match ← peek with
  | some 'n' => word "null".toList; fail (.invalidType .null expected)
  | some 't' => word "true".toList; fail (.invalidType (.bool true) expected)
  | some 'f' => word "false".toList; fail (.invalidType (.bool false) expected)
  | some '"' => advance; fail (.invalidType (.string (← string)) expected)
  | some '[' => fail (.invalidType .sequence expected)
  | some '\x7b' => fail (.invalidType .map expected)
  | some c =>
    if c = '-' ∨ Text.isDigit c then fail (.invalidType (.number (← number)) expected)
    else malformed
  | none => malformed

end Scan

end SignedManifest.Json
