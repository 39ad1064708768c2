/-!
The distinguished encoding of structured data: tag, length and content. A length has its shortest
form, and an unsigned integer no more than the one leading zero that keeps it positive.
-/
namespace SignedManifest.Der

abbrev Parse := StateT (List UInt8) Option

def natOfBytes (bytes : List UInt8) : Nat := bytes.foldl (fun n b => 256 * n + b.toNat) 0

def bytesBefore (n : Nat) (behind : List UInt8) : List UInt8 :=
  if n = 0 then behind else bytesBefore (n / 256) (UInt8.ofNat n :: behind)
termination_by n

/-- The shortest big-endian bytes of a number, none for zero. -/
def bytesOfNat (n : Nat) : List UInt8 := bytesBefore n []

def integerTag : UInt8 := 0x02
def bitStringTag : UInt8 := 0x03
def octetStringTag : UInt8 := 0x04
def nullTag : UInt8 := 0x05
def objectTag : UInt8 := 0x06
def sequenceTag : UInt8 := 0x30

def contextTag (constructed : Bool) (number : UInt8) : UInt8 :=
  (if constructed then 0xa0 else 0x80) + number

def lengthLimit : Nat := 0xfffffff

namespace Parse

def take (n : Nat) : Parse (List UInt8) := fun bytes =>
  if n ≤ bytes.length then some (bytes.take n, bytes.drop n) else none

def byte : Parse UInt8 := fun bytes =>
  match bytes with
  | b :: r => some (b, r)
  | [] => none

def length : Parse Nat := do
  let first := (← byte).toNat
  if first < 0x80 then return first
  let size := first - 0x80
  if size = 0 ∨ 4 < size then failure
  let n := natOfBytes (← take size)
  let shortest := if size = 1 then 0x80 ≤ n else 1 <<< (8 * (size - 1)) ≤ n
  if shortest ∧ n ≤ lengthLimit then return n else failure

def peekTag : Parse (Option UInt8) := return (← get).head?

def anyContent : Parse (List UInt8) := do
  let _ ← byte
  take (← length)

def content (tag : UInt8) : Parse (List UInt8) := do
  if (← byte) = tag then take (← length) else failure

def within {α : Type} (bytes : List UInt8) (body : Parse α) : Parse α := fun outer => do
  let (a, rest) ← body bytes
  if rest = [] then some (a, outer) else none

def sequence {α : Type} (body : Parse α) : Parse α := do within (← content sequenceTag) body

def unsigned : Parse Nat := do
  match ← content integerTag with
  | [] => failure
  | [b] => if b < 0x80 then return b.toNat else failure
  | a :: b :: r =>
    if a < 0x80 ∧ ¬(a = 0 ∧ b < 0x80) then return natOfBytes (a :: b :: r) else failure

def run? {α : Type} (p : Parse α) (bytes : List UInt8) : Option α :=
  match p bytes with
  | some (a, []) => some a
  | _ => none

end Parse

def lengthBytes (n : Nat) : List UInt8 :=
  if n < 0x80 then [UInt8.ofNat n]
  else
    let bytes := bytesOfNat n
    UInt8.ofNat (0x80 + bytes.length) :: bytes

def value (tag : UInt8) (content : List UInt8) : List UInt8 :=
  tag :: lengthBytes content.length ++ content

def unsignedBytes (n : Nat) : List UInt8 :=
  value integerTag <|
    match bytesOfNat n with
    | [] => [0]
    | b :: r => if b < 0x80 then b :: r else 0 :: b :: r

def sequenceOf (parts : List (List UInt8)) : List UInt8 := value sequenceTag parts.flatten

end SignedManifest.Der
