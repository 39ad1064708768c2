import SignedManifest.Text.Basic
/-!
The SHA-256 digest. A message is padded to whole blocks, and the blocks are folded into a chaining
value of eight words.
-/
namespace SignedManifest.Sha256

/-- The chaining value between blocks, and the working variables within one. -/
structure State where
  a : UInt32
  b : UInt32
  c : UInt32
  d : UInt32
  e : UInt32
  f : UInt32
  g : UInt32
  h : UInt32
  deriving DecidableEq, Inhabited

/-- Fractional parts of the square roots of the first eight primes. -/
def initial : State :=
  ⟨0x6a09e667, 0xbb67ae85, 0x3c6ef372, 0xa54ff53a, 0x510e527f, 0x9b05688c, 0x1f83d9ab, 0x5be0cd19⟩

/-- Fractional parts of the cube roots of the first 64 primes, one for each round. -/
def constants : List UInt32 := [
  0x428a2f98, 0x71374491, 0xb5c0fbcf, 0xe9b5dba5, 0x3956c25b, 0x59f111f1, 0x923f82a4, 0xab1c5ed5,
  0xd807aa98, 0x12835b01, 0x243185be, 0x550c7dc3, 0x72be5d74, 0x80deb1fe, 0x9bdc06a7, 0xc19bf174,
  0xe49b69c1, 0xefbe4786, 0x0fc19dc6, 0x240ca1cc, 0x2de92c6f, 0x4a7484aa, 0x5cb0a9dc, 0x76f988da,
  0x983e5152, 0xa831c66d, 0xb00327c8, 0xbf597fc7, 0xc6e00bf3, 0xd5a79147, 0x06ca6351, 0x14292967,
  0x27b70a85, 0x2e1b2138, 0x4d2c6dfc, 0x53380d13, 0x650a7354, 0x766a0abb, 0x81c2c92e, 0x92722c85,
  0xa2bfe8a1, 0xa81a664b, 0xc24b8b70, 0xc76c51a3, 0xd192e819, 0xd6990624, 0xf40e3585, 0x106aa070,
  0x19a4c116, 0x1e376c08, 0x2748774c, 0x34b0bcb5, 0x391c0cb3, 0x4ed8aa4a, 0x5b9cca4f, 0x682e6ff3,
  0x748f82ee, 0x78a5636f, 0x84c87814, 0x8cc70208, 0x90befffa, 0xa4506ceb, 0xbef9a3f7, 0xc67178f2]

def rotateRight (x : UInt32) (n : UInt32) : UInt32 := (x >>> n) ||| (x <<< (32 - n))

def choose (x y z : UInt32) : UInt32 := (x &&& y) ^^^ (~~~x &&& z)

def majority (x y z : UInt32) : UInt32 := (x &&& y) ^^^ (x &&& z) ^^^ (y &&& z)

def upperSigma0 (x : UInt32) : UInt32 := rotateRight x 2 ^^^ rotateRight x 13 ^^^ rotateRight x 22
def upperSigma1 (x : UInt32) : UInt32 := rotateRight x 6 ^^^ rotateRight x 11 ^^^ rotateRight x 25
def lowerSigma0 (x : UInt32) : UInt32 := rotateRight x 7 ^^^ rotateRight x 18 ^^^ (x >>> 3)
def lowerSigma1 (x : UInt32) : UInt32 := rotateRight x 17 ^^^ rotateRight x 19 ^^^ (x >>> 10)

def round (s : State) (word constant : UInt32) : State :=
  let t := s.h + upperSigma1 s.e + choose s.e s.f s.g + constant + word
  ⟨t + upperSigma0 s.a + majority s.a s.b s.c, s.a, s.b, s.c, s.d + t, s.e, s.f, s.g⟩

def wordAt (b : ByteArray) (i : Nat) : UInt32 :=
  (List.range 4).foldl (fun w k => w <<< 8 ||| ((b[i + k]?).getD 0).toUInt32) 0

def extend : Nat → Array UInt32 → Array UInt32
  | 0, w => w
  | n + 1, w =>
    let back (k : Nat) : UInt32 := w.getD (w.size - k) 0
    extend n (w.push (lowerSigma1 (back 2) + back 7 + lowerSigma0 (back 15) + back 16))

def schedule (b : ByteArray) (i : Nat) : Array UInt32 :=
  extend 48 ((Array.range 16).map fun k => wordAt b (i + 4 * k))

def compress (b : ByteArray) (s : State) (i : Nat) : State :=
  let t := ((schedule b i).toList.zip constants).foldl (fun t (w, k) => round t w k) s
  ⟨s.a + t.a, s.b + t.b, s.c + t.c, s.d + t.d, s.e + t.e, s.f + t.f, s.g + t.g, s.h + t.h⟩

def blockSize : Nat := 64

def bigEndian (n : Nat) : (width : Nat) → List UInt8
  | 0 => []
  | w + 1 => UInt8.ofNat (n >>> (8 * w)) :: bigEndian n w

/-- What follows a message: one set bit, zeros, and the length in bits at the end of a block. -/
def padding (size : Nat) : List UInt8 :=
  0x80 :: List.replicate ((2 * blockSize - 9 - size % blockSize) % blockSize) 0 ++
    bigEndian (8 * size) 8

def finalState (message : ByteArray) : State :=
  let padded := message ++ ⟨(padding message.size).toArray⟩
  (List.range (padded.size / blockSize)).foldl (fun s k => compress padded s (blockSize * k)) initial

def State.words (s : State) : List UInt32 := [s.a, s.b, s.c, s.d, s.e, s.f, s.g, s.h]

def digest (message : ByteArray) : List UInt8 :=
  (finalState message).words.flatMap fun w => bigEndian w.toNat 4

def fingerprint (message : ByteArray) : String := "sha256:" ++ Text.hexOfBytes (digest message)

end SignedManifest.Sha256
