import SignedManifest.Archive.Verification
import SignedManifest.Key.Rsa
/-!
RSA signatures over SHA-256 digests. The digest is set into a number of the modulus's length with a
fixed filling, so a key signs equal bytes equally, and only that one number is a valid signature.
-/
namespace SignedManifest.Rsa

def powMod (b e m : Nat) : Nat :=
  if e = 0 then 1 % m
  else
    let half := powMod (b * b % m) (e / 2) m
    if e % 2 = 1 then b * half % m else half
termination_by e

theorem powMod_eq (b e m : Nat) : powMod b e m = Nat.pow b e % m := by
  rw [Nat.pow_eq]
  fun_induction powMod b e m with
  | case1 => simp
  | case2 b e h half odd ih =>
    have : b ^ e = b * (b * b) ^ (e / 2) := by
      rw [← Nat.pow_two, ← Nat.pow_mul, ← Nat.pow_succ']
      congr 1
      omega
    simp only [half, ih, this]
    rw [Nat.mul_mod, Nat.mod_mod, ← Nat.pow_mod, ← Nat.mul_mod]
  | case3 b e h half odd ih =>
    have : b ^ e = (b * b) ^ (e / 2) := by
      rw [← Nat.pow_two, ← Nat.pow_mul]
      congr 1
      omega
    simp only [half, ih, this, ← Nat.pow_mod]

def digestHeader : List UInt8 := [0x30, 0x31, 0x30, 0x0d, 0x06, 0x09, 0x60, 0x86, 0x48, 0x01, 0x65,
  0x03, 0x04, 0x02, 0x01, 0x05, 0x00, 0x04, 0x20]

/-- The least number of filling bytes together with the three that frame them. -/
def frameSize : Nat := 11

def filledDigest? (size : Nat) (data : ByteArray) : Option (List UInt8) :=
  let named := digestHeader ++ Sha256.digest data
  if named.length + frameSize ≤ size then
    some ([0, 1] ++ List.replicate (size - named.length - 3) 0xff ++ [0] ++ named)
  else none

def bytesOfSize (size n : Nat) : List UInt8 :=
  let bytes := Der.bytesOfNat n
  List.replicate (size - bytes.length) 0 ++ bytes

namespace PrivateKey

/-- The signature of some bytes, checked before it is given away. -/
def sign (k : PrivateKey) (data : ByteArray) : Except ExportError ByteArray :=
  let size := byteLength k.modulus
  match filledDigest? size data with
  | none => .error (.signing "signature error: message too long")
  | some filled =>
    let message := Der.natOfBytes filled
    let signature := powMod message k.privateExponent k.modulus
    if powMod signature k.exponent k.modulus = message then
      .ok ⟨(bytesOfSize size signature).toArray⟩
    else .error (.signing "signature error: internal error")

def parseText (text : String) : Except ExportError PrivateKey :=
  match ofText? text with
  | some k => .ok k
  | none => .error (.signing "invalid RSA private key: malformed key")

def load (path : String) (d : Disk) : Except ExportError PrivateKey :=
  match d.contentText path with
  | .ok text => parseText text
  | .error e => .error (.io path e)

def describe (k : PrivateKey) : String :=
  "RsaManifestSigner \x7b key_id: " ++ Text.quoted k.id ++ ", .. \x7d"

end PrivateKey

namespace PublicKey

/-- Whether the signature has the size of the modulus, is a number below it, and holds the digest. -/
def verify (k : PublicKey) (data signature : ByteArray) : Bool :=
  let size := byteLength k.modulus
  let number := Der.natOfBytes signature.toList
  signature.size == size && number < k.modulus &&
    filledDigest? size data == some (bytesOfSize size (powMod number k.exponent k.modulus))

def parseText (text : String) : Except VerifyError PublicKey :=
  match ofText? text with
  | some k => .ok k
  | none => .error (.key "invalid RSA public key: malformed key")

def load (path : String) (d : Disk) : Except VerifyError PublicKey :=
  match d.contentText path with
  | .ok text => parseText text
  | .error e => .error (.io path e)

def describe (k : PublicKey) : String :=
  "RsaManifestVerifier \x7b key_id: " ++ Text.quoted k.id ++ ", .. \x7d"

end PublicKey

end SignedManifest.Rsa
