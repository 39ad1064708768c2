import SignedManifest.Json.Codec
/-!
Points in time, in UTC on the proleptic Gregorian calendar, with nanoseconds and with a sixtieth
second where a leap second falls. `Moment.text` writes one and `Moment.parse` reads the looser
spellings that are accepted: unpadded numbers, blanks between the parts, any offset from UTC.
-/
namespace SignedManifest

def isLeapYear (year : Int) : Bool := year % 4 == 0 && (year % 100 != 0 || year % 400 == 0)

def daysInMonth (year : Int) (month : Nat) : Nat :=
  if month = 2 then if isLeapYear year then 29 else 28
  else if month = 4 ∨ month = 6 ∨ month = 9 ∨ month = 11 then 30
  else 31

structure Day where
  year : Int
  month : Nat
  day : Nat
  valid : -262143 ≤ year ∧ year ≤ 262142 ∧ 1 ≤ month ∧ month ≤ 12 ∧
    1 ≤ day ∧ day ≤ daysInMonth year month
  deriving DecidableEq, Repr

namespace Day

def of? (year : Int) (month day : Nat) : Option Day :=
  if h : -262143 ≤ year ∧ year ≤ 262142 ∧ 1 ≤ month ∧ month ≤ 12 ∧
    1 ≤ day ∧ day ≤ daysInMonth year month then some ⟨year, month, day, h⟩
  else none

def next? (d : Day) : Option Day :=
  if d.day < daysInMonth d.year d.month then of? d.year d.month (d.day + 1)
  else if d.month < 12 then of? d.year (d.month + 1) 1
  else of? (d.year + 1) 1 1

def previous? (d : Day) : Option Day :=
  if 1 < d.day then of? d.year d.month (d.day - 1)
  else if 1 < d.month then of? d.year (d.month - 1) (daysInMonth d.year (d.month - 1))
  else of? (d.year - 1) 12 31

def later? (d : Day) : Nat → Option Day
  | 0 => some d
  | n + 1 => d.next?.bind (later? · n)

def epoch : Day := ⟨1970, 1, 1, by decide⟩

/-- Four digits in the years 0 to 9999, a sign and at least four digits in all others. -/
def yearText (year : Int) : String :=
  if 0 ≤ year ∧ year ≤ 9999 then Text.padded 4 year.toNat
  else (if year < 0 then "-" else "+") ++ Text.padded 4 year.natAbs

def text (d : Day) : String :=
  yearText d.year ++ "-" ++ Text.padded 2 d.month ++ "-" ++ Text.padded 2 d.day

end Day

structure Moment where
  day : Day
  hour : Nat
  minute : Nat
  second : Nat
  nanos : Nat
  valid : hour < 24 ∧ minute < 60 ∧ second ≤ 60 ∧ nanos < 1000000000
  deriving DecidableEq, Repr

namespace Moment

/-- The fraction of a second with the fewest groups of three digits that are exact. -/
def fractionText (nanos : Nat) : String :=
  if nanos = 0 then ""
  else if nanos % 1000000 = 0 then "." ++ Text.padded 3 (nanos / 1000000)
  else if nanos % 1000 = 0 then "." ++ Text.padded 6 (nanos / 1000)
  else "." ++ Text.padded 9 nanos

def text (m : Moment) : String :=
  m.day.text ++ "T" ++ Text.padded 2 m.hour ++ ":" ++ Text.padded 2 m.minute ++ ":" ++
    Text.padded 2 m.second ++ fractionText m.nanos ++ "Z"

def ofLocal? (d : Day) (hour minute second nanos : Nat) (offset : Int) : Option Moment := do
  let minutes : Int := 60 * hour + minute - offset
  let utcDay ←
    if minutes < 0 then d.previous? else if minutes < 1440 then some d else d.next?
  let inDay := (minutes % 1440).toNat
  if h : inDay / 60 < 24 ∧ inDay % 60 < 60 ∧ second ≤ 60 ∧ nanos < 1000000000 then
    some ⟨utcDay, inDay / 60, inDay % 60, second, nanos, h⟩
  else none

def ofUnix? (seconds nanos : Nat) : Option Moment := do
  let day ← Day.epoch.later? (seconds / 86400)
  ofLocal? day (seconds / 3600 % 24) (seconds / 60 % 60) (seconds % 60) nanos 0

/-! ### Reading -/

def number? (most : Nat) (cs : List Char) : Option (Nat × List Char) :=
  let cs := cs.dropWhile Text.isBlank
  let ds := (cs.take most).takeWhile Text.isDigit
  if ds.isEmpty then none else some (Text.natOfDigits ds, cs.drop ds.length)

def year? (cs : List Char) : Option (Int × List Char) :=
  let cs := cs.dropWhile Text.isBlank
  let signed (sign : Int) (r : List Char) : Option (Int × List Char) :=
    let ds := r.takeWhile Text.isDigit
    if ds.isEmpty then none else some (sign * Text.natOfDigits ds, r.drop ds.length)
  match cs with
  | '-' :: r => signed (-1) r
  | '+' :: r => signed 1 r
  | _ => (number? 4 cs).map fun (n, r) => (n, r)

def mark? (c : Char) (cs : List Char) : Option (List Char) :=
  match cs.dropWhile Text.isBlank with
  | d :: r => if c = d then some r else none
  | [] => none

/-- A fraction of a second, if a point stands next: at least one digit, and only nine count. -/
def fraction? : List Char → Option (Nat × List Char)
  | '.' :: r =>
    let ds := r.takeWhile Text.isDigit
    let kept := ds.take 9
    if ds.isEmpty then none
    else some (Text.natOfDigits kept * Nat.pow 10 (9 - kept.length), r.drop ds.length)
  | cs => some (0, cs)

def pair? : List Char → Option (Nat × List Char)
  | a :: b :: r =>
    if Text.isDigit a ∧ Text.isDigit b then some (Text.natOfDigits [a, b], r) else none
  | _ => none

/-- An offset from UTC in minutes: a letter Z, the word UTC, or a sign with hours and minutes that
colons or blanks may separate. -/
def offset? (cs : List Char) : Option (Int × List Char) :=
  let hoursAndMinutes (sign : Int) (r : List Char) : Option (Int × List Char) := do
    let (h, r) ← pair? r
    let (m, r) ← pair? (r.dropWhile fun c => c == ':' || Text.isBlank c)
    if h < 24 ∧ m < 60 then some (sign * (60 * h + m : Nat), r) else none
  let zone : Option (Int × List Char) :=
    match cs with
    | 'Z' :: r => some (0, r)
    | 'z' :: r => some (0, r)
    | '+' :: r => hoursAndMinutes 1 r
    | '-' :: r => hoursAndMinutes (-1) r
    | '−' :: r => hoursAndMinutes (-1) r
    | _ => none
  if Text.sameIgnoringCase (String.ofList (cs.take 3)) "UTC" then some (0, cs.drop 3) else zone

def parse (s : String) : Option Moment := do
  let (year, r) ← year? s.toList
  let (month, r) ← number? 2 (← mark? '-' r)
  let (day, r) ← number? 2 (← mark? '-' r)
  let r ←
    match r with
    | c :: r => if c = 'T' ∨ c = 't' ∨ c = ' ' then some r else none
    | [] => none
  let (hour, r) ← number? 2 r
  let (minute, r) ← number? 2 (← mark? ':' r)
  let (second, r) ← number? 2 (← mark? ':' r)
  let (nanos, r) ← fraction? r
  let (offset, r) ← offset? (r.dropWhile Text.isBlank)
  if r.all Text.isBlank ∧ hour < 24 ∧ minute < 60 ∧ second ≤ 60 then
    ofLocal? (← Day.of? year month day) hour minute second nanos offset
  else none

def codec : Json.Codec Moment where
  read depth := do
    let s ← (Json.Codec.textAs "an RFC 3339 formatted date and time string").read depth
    match parse s with
    | some m => return m
    | none => Json.Scan.fail .invalidDate
  write m := .str m.text

end Moment

end SignedManifest
