import SignedManifest.Digest.Sha256
import SignedManifest.Key.Armor
import SignedManifest.Key.Der
/-!
RSA keys and the texts that hold them: each kind of key either alone or inside the envelope that
names its algorithm.
-/
namespace SignedManifest.Rsa

open Der

structure PublicKey where
  modulus : Nat
  exponent : Nat
  deriving DecidableEq, Repr

structure PrivateKey extends PublicKey where
  privateExponent : Nat
  prime1 : Nat
  prime2 : Nat
  deriving DecidableEq, Repr

def byteLength (n : Nat) : Nat := (bytesOfNat n).length

def modulusBits : Nat := 4096

def exponentBits : Nat := 33

def PublicKey.isSound (k : PublicKey) : Bool :=
  k.exponent < k.modulus && 2 ≤ k.exponent && k.exponent < 1 <<< exponentBits

/-- A public key that signatures are checked with. A key that signs may be longer. -/
def PublicKey.isUsable (k : PublicKey) : Bool := k.modulus < 1 <<< modulusBits && k.isSound

/-- The parts fit together: the primes give the modulus, and the exponents undo each other. -/
def PrivateKey.isConsistent (k : PrivateKey) : Bool :=
  let product := k.exponent * k.privateExponent
  k.isSound && 1 < k.prime1 && 1 < k.prime2 && k.prime1 * k.prime2 == k.modulus && 0 < product &&
    (product - 1) % (k.prime1 - 1) == 0 && (product - 1) % (k.prime2 - 1) == 0

/-- The content of the identifier of RSA encryption, 1.2.840.113549.1.1.1. -/
def algorithmName : List UInt8 := [0x2a, 0x86, 0x48, 0x86, 0xf7, 0x0d, 0x01, 0x01, 0x01]

def algorithm : Parse Unit := Parse.sequence do
  if (← Parse.content objectTag) ≠ algorithmName then failure
  if (← Parse.content nullTag) ≠ [] then failure

def PublicKey.parse : Parse PublicKey := Parse.sequence do
  return ⟨← Parse.unsigned, ← Parse.unsigned⟩

def PublicKey.ofEnvelope : Parse PublicKey := Parse.sequence do
  algorithm
  match ← Parse.content bitStringTag with
  | unused :: bytes => if unused = 0 then Parse.within bytes PublicKey.parse else failure
  | [] => failure

/-- A key of two primes. The exponents and the coefficient that only speed up its use are read and
left out. -/
def PrivateKey.parse : Parse PrivateKey := Parse.sequence do
  if (← Parse.unsigned) ≠ 0 then failure
  let modulus ← Parse.unsigned
  let exponent ← Parse.unsigned
  let privateExponent ← Parse.unsigned
  let prime1 ← Parse.unsigned
  let prime2 ← Parse.unsigned
  let _ ← Parse.unsigned
  let _ ← Parse.unsigned
  let _ ← Parse.unsigned
  return ⟨⟨modulus, exponent⟩, privateExponent, prime1, prime2⟩

/-- Attributes after the key in an envelope, up to the public key that version one adds. Whether that
was there is the answer. -/
def envelopeExtras : Nat → Parse Bool
  | 0 => failure
  | n + 1 => do
    match ← Parse.peekTag with
    | none => return false
    | some tag =>
      if tag = contextTag false 1 then
        match ← Parse.content tag with
        | 0 :: _ => skipRest n; return true
        | _ => failure
      else if 0x80 ≤ tag ∧ tag < 0xc0 then
        let _ ← Parse.anyContent
        envelopeExtras n
      else failure
where
  skipRest : Nat → Parse Unit
    | 0 => failure
    | n + 1 => do
      match ← Parse.peekTag with
      | none => return ()
      | some tag =>
        if 0xa0 ≤ tag ∧ tag < 0xc0 then
          let _ ← Parse.anyContent
          skipRest n
        else failure

def PrivateKey.ofEnvelope : Parse PrivateKey := Parse.sequence do
  let version ← Parse.unsigned
  if 1 < version then failure
  algorithm
  let key ← Parse.content octetStringTag
  let withPublicKey ← envelopeExtras ((← get).length + 1)
  if withPublicKey ≠ (version = 1 : Bool) then failure
  Parse.within key PrivateKey.parse

def PublicKey.ofText? (text : String) : Option PublicKey :=
  let decode (label : String) (p : Parse PublicKey) : Option PublicKey := do
    (← p.run? (← Armor.decode? label text)) |> Option.guard (·.isUsable)
  (decode "PUBLIC KEY" ofEnvelope).or (decode "RSA PUBLIC KEY" parse)

def PrivateKey.ofText? (text : String) : Option PrivateKey :=
  let decode (label : String) (p : Parse PrivateKey) : Option PrivateKey := do
    (← p.run? (← Armor.decode? label text)) |> Option.guard (·.isConsistent)
  (decode "PRIVATE KEY" ofEnvelope).or (decode "RSA PRIVATE KEY" parse)

def PublicKey.envelope (k : PublicKey) : List UInt8 :=
  sequenceOf [sequenceOf [value objectTag algorithmName, value nullTag []],
    value bitStringTag (0 :: sequenceOf [unsignedBytes k.modulus, unsignedBytes k.exponent])]

/-- What a key is known by: the fingerprint of the public key in its envelope. -/
def PublicKey.id (k : PublicKey) : String := Sha256.fingerprint ⟨k.envelope.toArray⟩

end SignedManifest.Rsa
