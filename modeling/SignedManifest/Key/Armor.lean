/-!
Bytes in armor: base64 between two boundary lines with one label. What stands before the first
boundary is passed over; nothing may follow the second one but the end of its line. Every line of
base64 except the last has the full width, and only the form that encoding gives is read, so the bits
that a short group leaves over must be zero.
-/
namespace SignedManifest.Base64

def alphabet : List Char :=
  "ABCDEFGHIJKLMNOPQRSTUVWXYZabcdefghijklmnopqrstuvwxyz0123456789+/".toList

def value? (c : Char) : Option Nat := alphabet.idxOf? c

def byte (n : Nat) : UInt8 := UInt8.ofNat n

def decode? : List Char → Option (List UInt8)
  | [] => some []
  | [a, b, '=', '='] => do
    let (x, y) := (← value? a, ← value? b)
    if y % 16 = 0 then some [byte (x * 4 + y / 16)] else none
  | [a, b, c, '='] => do
    let (x, y, z) := (← value? a, ← value? b, ← value? c)
    if z % 4 = 0 then some [byte (x * 4 + y / 16), byte (y % 16 * 16 + z / 4)] else none
  | a :: b :: c :: d :: rest => do
    let (x, y, z, w) := (← value? a, ← value? b, ← value? c, ← value? d)
    return byte (x * 4 + y / 16) :: byte (y % 16 * 16 + z / 4) :: byte (z % 4 * 64 + w) ::
      (← decode? rest)
  | _ => none

end SignedManifest.Base64

namespace SignedManifest.Armor

def after? : (word text : List Char) → Option (List Char)
  | [], text => some text
  | c :: w, d :: text => if c = d then after? w text else none
  | _ :: _, [] => none

def before? (word text : List Char) : Option (List Char) :=
  (after? word.reverse text.reverse).map List.reverse

def opening : List Char := "-----BEGIN ".toList

def closing : List Char := "-----END ".toList

def dashes : List Char := "-----".toList

def afterBreak? : List Char → Option (List Char)
  | '\r' :: '\n' :: r => some r
  | '\r' :: r => some r
  | '\n' :: r => some r
  | _ => none

def beforeBreak? (text : List Char) : Option (List Char) :=
  match text.reverse with
  | '\n' :: '\r' :: r => some r.reverse
  | '\n' :: r => some r.reverse
  | '\r' :: r => some r.reverse
  | _ => none

/-- What follows the first opening boundary that starts the text or a line of it. -/
def skipPreamble? (text : List Char) : Option (List Char) :=
  (after? opening text).or (fromLine text)
where
  fromLine : List Char → Option (List Char)
    | [] => none
    | c :: r =>
      if c = '\x00' then none
      else if c = '\n' then (after? opening r).or (fromLine r)
      else fromLine r

def body? (label : String) (text : List Char) : Option (List Char) := do
  let rest ← afterBreak? (← after? (label.toList ++ dashes) (← skipPreamble? text))
  let rest := (beforeBreak? rest).getD rest
  beforeBreak? (← before? (closing ++ label.toList ++ dashes) rest)

def width : Nat := 64

/-- The base64 of lines, joined; the fuel need only exceed the number of lines. -/
def joinLines? : Nat → List Char → Option (List Char)
  | 0, _ => none
  | n + 1, text =>
    let rest := text.drop width
    if rest = [] then some ((beforeBreak? text).getD text)
    else do return text.take width ++ (← joinLines? n (← afterBreak? rest))

def decode? (label : String) (text : String) : Option (List UInt8) := do
  let body ← body? label text.toList
  Base64.decode? (← joinLines? (body.length + 1) body)

end SignedManifest.Armor
