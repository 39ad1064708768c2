/-!
A text as it arrives, byte by byte: characters, with `none` for a byte that belongs to no character.
Such bytes matter only where a character is wanted, so they are kept until then.
-/
namespace SignedManifest

/-- Characters, and `none` for each byte that belongs to no character. -/
abbrev Symbols := List (Option Char)

namespace Symbols

def ofString (s : String) : Symbols := s.toList.map some

def continuation? (b : UInt8) : Option Nat :=
  if b.toNat / 64 = 2 then some (b.toNat % 64) else none

/-- The character that starts with the byte `a` and the length of its encoding. Overlong forms,
surrogates and values past the last code point are refused. -/
def leading? (a : UInt8) (rest : List UInt8) : Option (Char × Nat) :=
  let n := a.toNat
  if n < 0x80 then some (Char.ofNat n, 1)
  else if n < 0xc2 then none
  else if n < 0xe0 then do
    let x ← continuation? (← rest[0]?)
    some (Char.ofNat (n % 32 * 64 + x), 2)
  else if n < 0xf0 then do
    let x ← continuation? (← rest[0]?)
    let y ← continuation? (← rest[1]?)
    let c := n % 16 * 4096 + x * 64 + y
    if c < 0x800 ∨ (0xd800 ≤ c ∧ c < 0xe000) then none else some (Char.ofNat c, 3)
  else if n < 0xf5 then do
    let x ← continuation? (← rest[0]?)
    let y ← continuation? (← rest[1]?)
    let z ← continuation? (← rest[2]?)
    let c := n % 8 * 262144 + x * 4096 + y * 64 + z
    if c < 0x10000 ∨ 0x10ffff < c then none else some (Char.ofNat c, 4)
  else none

/-- Reads characters where they stand complete; `pending` bytes belong to the character just read. -/
def decode (pending : Nat) : List UInt8 → Symbols
  | [] => []
  | a :: rest =>
    match pending with
    | k + 1 => decode k rest
    | 0 =>
      match leading? a rest with
      | some (c, k) => some c :: decode (k - 1) rest
      | none => none :: decode 0 rest

def ofBytes (bytes : ByteArray) : Symbols :=
  match String.fromUTF8? bytes with
  | some s => ofString s
  | none => decode 0 bytes.toList

end Symbols

end SignedManifest
