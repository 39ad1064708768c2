/-!
The shortest decimal numeral of a binary64 value: the fewest digits that read back as the same
value, and of those the nearest. A positive finite value is taken apart into `m * 2 ^ q`; the reals
that round to it reach half way to each neighbour, and both ends belong to it exactly when `m` is
even. Decimal grids are tried from one digit upwards in exact arithmetic.
-/
namespace SignedManifest.Decimal

structure Scientific where
  digits : Nat
  exponent : Int
  deriving DecidableEq, Repr

/-- The reals that round to one positive value, in units of `num / den`. -/
structure Interval where
  lower : Nat
  value : Nat
  upper : Nat
  closed : Bool
  num : Nat
  den : Nat

def Interval.ofBits (bits : Nat) : Interval :=
  let fraction : Nat := bits % (1 <<< 52)
  let biased : Nat := (bits >>> 52) % (1 <<< 11)
  let m := if biased = 0 then fraction else fraction + (1 <<< 52)
  let q : Int := Int.ofNat (if biased = 0 then 1 else biased) - 1077
  { lower := if fraction = 0 ∧ biased > 1 then 4 * m - 1 else 4 * m - 2
    value := 4 * m
    upper := 4 * m + 2
    closed := m % 2 == 0
    num := 1 <<< q.toNat
    den := 1 <<< (-q).toNat }

def Interval.contains (i : Interval) (d : Nat) (k : Int) : Bool :=
  let x := d * Nat.pow 10 k.toNat * i.den
  let scale := i.num * Nat.pow 10 (-k).toNat
  if i.closed then i.lower * scale ≤ x && x ≤ i.upper * scale
  else i.lower * scale < x && x < i.upper * scale

/-- How far `d * 10 ^ k` lies from the value, in a unit that depends on `k` alone. -/
def Interval.distance (i : Interval) (d : Nat) (k : Int) : Nat :=
  let x := d * Nat.pow 10 k.toNat * i.den
  let v := i.value * (i.num * Nat.pow 10 (-k).toNat)
  if x ≤ v then v - x else x - v

def Interval.floor (i : Interval) (k : Int) : Nat :=
  i.value * i.num * Nat.pow 10 (-k).toNat / (i.den * Nat.pow 10 k.toNat)

def Interval.magnitude (i : Interval) : Int :=
  let guess : Int := (Nat.toDigits 10 (i.value * i.num)).length - (Nat.toDigits 10 i.den).length
  if i.floor guess ≥ 1 then guess else guess - 1

/-- The better of the value's two neighbours on one grid, if one of them reads back. -/
def Interval.onGrid (i : Interval) (k : Int) : Option Scientific :=
  let low := i.floor k
  match i.contains low k, i.contains (low + 1) k with
  | true, true =>
    let a := i.distance low k
    let b := i.distance (low + 1) k
    some ⟨if a < b ∨ (a = b ∧ low % 2 = 0) then low else low + 1, k⟩
  | true, false => some ⟨low, k⟩
  | false, true => some ⟨low + 1, k⟩
  | false, false => none

def Scientific.trimmed (s : Scientific) : Nat → Scientific
  | 0 => s
  | n + 1 => if s.digits % 10 = 0 then Scientific.trimmed ⟨s.digits / 10, s.exponent + 1⟩ n else s

/-- The shortest numeral of a positive finite value; seventeen digits always read back. -/
def shortest (bits : Nat) : Scientific :=
  let i := Interval.ofBits bits
  let top := i.magnitude
  let grid (n : Nat) : Option Scientific := i.onGrid (top - n)
  match (List.range 18).findSome? grid with
  | some s => s.trimmed 18
  | none => ⟨i.floor (top - 17), top - 17⟩

/-- A numeral with a decimal point: positional from `10 ^ -5` up to below `10 ^ 16`, with an exponent
elsewhere. -/
def Scientific.text (s : Scientific) : String :=
  let ds := Nat.toDigits 10 s.digits
  let point : Int := ds.length + s.exponent
  let zeros (n : Int) : List Char := List.replicate n.toNat '0'
  if 0 ≤ s.exponent ∧ point ≤ 16 then String.ofList (ds ++ zeros s.exponent ++ ['.', '0'])
  else if 0 < point ∧ point ≤ 16 then
    String.ofList (ds.take point.toNat ++ '.' :: ds.drop point.toNat)
  else if -5 < point ∧ point ≤ 0 then String.ofList ('0' :: '.' :: zeros (-point) ++ ds)
  else
    let mantissa := if ds.length = 1 then ds else ds.take 1 ++ '.' :: ds.drop 1
    String.ofList mantissa ++ "e" ++ toString (point - 1)

def textOfBits (bits : Nat) : String :=
  let size := bits % (1 <<< 63)
  (if (bits >>> 63) % 2 = 1 then "-" else "") ++ if size = 0 then "0.0" else (shortest size).text

end SignedManifest.Decimal
