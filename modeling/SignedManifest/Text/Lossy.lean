/-!
Reading UTF-8 that may be damaged. A sequence of bytes that breaks off gives one replacement
character for the part that was sound so far, and the byte that broke it is read anew.
-/
namespace SignedManifest.Text

def replacement : Char := '\ufffd'

/-- A character that is read in part: its number so far, how many bytes it lacks, and the bounds of
the next one. -/
structure PartialChar where
  value : Nat
  missing : Nat
  least : Nat := 0x80
  most : Nat := 0xbf
  deriving DecidableEq, Repr

namespace PartialChar

/-- What a byte starts: a character of one byte, a longer one, or none. The bounds keep out longer
forms than needed, halves of pairs and numbers beyond the last character. -/
def start (b : Nat) : Char ⊕ PartialChar :=
  if b < 0x80 then .inl (Char.ofNat b)
  else if 0xc2 ≤ b ∧ b ≤ 0xdf then .inr { value := b - 0xc0, missing := 1 }
  else if 0xe0 ≤ b ∧ b ≤ 0xef then
    .inr { value := b - 0xe0, missing := 2
           least := if b = 0xe0 then 0xa0 else 0x80
           most := if b = 0xed then 0x9f else 0xbf }
  else if 0xf0 ≤ b ∧ b ≤ 0xf4 then
    .inr { value := b - 0xf0, missing := 3
           least := if b = 0xf0 then 0x90 else 0x80
           most := if b = 0xf4 then 0x8f else 0xbf }
  else .inl replacement

def extend (p : PartialChar) (b : Nat) : Char ⊕ PartialChar :=
  let value := 64 * p.value + (b - 0x80)
  if p.missing ≤ 1 then .inl (Char.ofNat value) else .inr { value, missing := p.missing - 1 }

def accepts (p : PartialChar) (b : Nat) : Bool := p.least ≤ b && b ≤ p.most

end PartialChar

def lossyChars : Option PartialChar → List UInt8 → List Char
  | none, [] => []
  | some _, [] => [replacement]
  | p, b :: r =>
    let (before, next) :=
      match p with
      | none => ([], PartialChar.start b.toNat)
      | some p =>
        if p.accepts b.toNat then ([], p.extend b.toNat)
        else ([replacement], PartialChar.start b.toNat)
    match next with
    | .inl c => before ++ c :: lossyChars none r
    | .inr q => before ++ lossyChars (some q) r

def lossy (bytes : List UInt8) : String := String.ofList (lossyChars none bytes)

end SignedManifest.Text
