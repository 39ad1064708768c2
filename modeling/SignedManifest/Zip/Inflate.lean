/-!
Decompression of deflated entries. A stream that ends too early gives what it held so far; a stream
that breaks the format is an error.
-/
namespace SignedManifest.Zip

namespace Inflate

inductive Fault where
  | truncated
  | corrupt
  deriving DecidableEq

structure State where
  position : Nat := 0
  output : ByteArray := ByteArray.empty

abbrev M := EStateM Fault State

/-- The next bit of the input. Within a byte the lowest bit comes first. -/
def bit (input : ByteArray) : M Nat := fun s =>
  match input[s.position / 8]? with
  | some b => .ok ((b.toNat >>> (s.position % 8)) % 2) { s with position := s.position + 1 }
  | none => .error .truncated s

def bits (input : ByteArray) : Nat → M Nat
  | 0 => return 0
  | n + 1 => do
    let low ← bit input
    let high ← bits input n
    return low + 2 * high

structure Code where
  counts : Array Nat
  symbols : Array Nat

def countOf (lengths : List Nat) (n : Nat) : Nat := lengths.count n

/-- The code with given lengths, zero for symbols that do not occur. Several symbols must use up all
codes; one may leave some unused. -/
def Code.ofLengths? (lengths : List Nat) : Option Code :=
  let counts : List Nat := (List.range 16).map fun n => if n = 0 then 0 else countOf lengths n
  let used : Nat := counts.foldl (· + ·) 0
  let total : Nat := (counts.zipIdx.map fun (c, n) => c <<< (15 - n)).foldl (· + ·) 0
  let symbols := (List.range 16).flatMap fun n =>
    if n = 0 then [] else lengths.zipIdx.filterMap fun (l, s) => if l = n then some s else none
  if total = 1 <<< 15 ∨ used ≤ 1 then some ⟨counts.toArray, symbols.toArray⟩ else none

/-- The next symbol. Codes of one length are consecutive numbers that start at `first`. -/
def symbolFrom (input : ByteArray) (c : Code) (length code first index : Nat) : Nat → M Nat
  | 0 => throw .corrupt
  | n + 1 => do
    let code := code + (← bit input)
    let count := c.counts.getD length 0
    if code < first + count then return c.symbols.getD (index + (code - first)) 0
    else symbolFrom input c (length + 1) (2 * code) (2 * (first + count)) (index + count) n

def symbol (input : ByteArray) (c : Code) : M Nat := symbolFrom input c 1 0 0 0 15

def emit (b : UInt8) : M Unit := modify fun s => { s with output := s.output.push b }

/-- Copies bytes from some distance back, which may be ones that this copy wrote. -/
def copy (distance : Nat) : Nat → M Unit
  | 0 => return ()
  | n + 1 => do
    let out := (← get).output
    if distance > out.size then throw .corrupt
    let some b := out[out.size - distance]? | throw .corrupt
    emit b
    copy distance n

def lengthTable : Array (Nat × Nat) := #[(3, 0), (4, 0), (5, 0), (6, 0), (7, 0), (8, 0), (9, 0),
  (10, 0), (11, 1), (13, 1), (15, 1), (17, 1), (19, 2), (23, 2), (27, 2), (31, 2), (35, 3), (43, 3),
  (51, 3), (59, 3), (67, 4), (83, 4), (99, 4), (115, 4), (131, 5), (163, 5), (195, 5), (227, 5),
  (258, 0)]

def distanceTable : Array (Nat × Nat) := #[(1, 0), (2, 0), (3, 0), (4, 0), (5, 1), (7, 1), (9, 2),
  (13, 2), (17, 3), (25, 3), (33, 4), (49, 4), (65, 5), (97, 5), (129, 6), (193, 6), (257, 7),
  (385, 7), (513, 8), (769, 8), (1025, 9), (1537, 9), (2049, 10), (3073, 10), (4097, 11), (6145, 11),
  (8193, 12), (12289, 12), (16385, 13), (24577, 13)]

def tabled (input : ByteArray) (table : Array (Nat × Nat)) (i : Nat) : M Nat := do
  match table[i]? with
  | some (least, n) => return least + (← bits input n)
  | none => throw .corrupt

/-- Literals and copies up to the end of a block. Every round reads at least one bit. -/
def block (input : ByteArray) (literals distances : Code) : Nat → M Unit
  | 0 => throw .corrupt
  | n + 1 => do
    let s ← symbol input literals
    if s < 256 then
      emit (UInt8.ofNat s)
      block input literals distances n
    else if s = 256 then return ()
    else
      let length ← tabled input lengthTable (s - 257)
      let distance ← tabled input distanceTable (← symbol input distances)
      copy distance length
      block input literals distances n

def verbatim (input : ByteArray) : Nat → M Unit
  | 0 => return ()
  | n + 1 => do
    emit (UInt8.ofNat (← bits input 8))
    verbatim input n

def storedBlock (input : ByteArray) : M Unit := do
  modify fun s => { s with position := (s.position + 7) / 8 * 8 }
  let length ← bits input 16
  let check ← bits input 16
  if length + check ≠ 65535 then throw .corrupt
  verbatim input length

def fixedLiterals : List Nat :=
  List.replicate 144 8 ++ List.replicate 112 9 ++ List.replicate 24 7 ++ List.replicate 8 8

/-- Code lengths, `have` of which are known, in reverse; some symbols repeat what came before. -/
def lengths (input : ByteArray) (c : Code) (wanted : Nat) (known : List Nat) : Nat → M (List Nat)
  | 0 => throw .corrupt
  | n + 1 => do
    if known.length = wanted then return known.reverse
    if known.length > wanted then throw .corrupt
    let s ← symbol input c
    if s < 16 then lengths input c wanted (s :: known) n
    else if s = 16 then
      match known with
      | [] => throw .corrupt
      | last :: _ =>
        lengths input c wanted (List.replicate (3 + (← bits input 2)) last ++ known) n
    else if s = 17 then
      lengths input c wanted (List.replicate (3 + (← bits input 3)) 0 ++ known) n
    else lengths input c wanted (List.replicate (11 + (← bits input 7)) 0 ++ known) n

def lengthOrder : List Nat := [16, 17, 18, 0, 8, 7, 9, 6, 10, 5, 11, 4, 12, 3, 13, 2, 14, 1, 15]

def triples (input : ByteArray) : Nat → M (List Nat)
  | 0 => return []
  | n + 1 => do
    let a ← bits input 3
    return a :: (← triples input n)

def codeOf (lengths : List Nat) : M Code :=
  match Code.ofLengths? lengths with
  | some c => return c
  | none => throw .corrupt

def ownCodes (input : ByteArray) : M (Code × Code) := do
  let literals := 257 + (← bits input 5)
  let distances := 1 + (← bits input 5)
  let given := lengthOrder.zip (← triples input (4 + (← bits input 4)))
  let c ← codeOf ((List.range 19).map fun i => (given.lookup i).getD 0)
  let all ← lengths input c (literals + distances) [] (literals + distances + 1)
  return (← codeOf (all.take literals), ← codeOf (all.drop literals))

def blocks (input : ByteArray) : Nat → M Unit
  | 0 => throw .corrupt
  | n + 1 => do
    let last ← bit input
    let kind ← bits input 2
    if kind = 0 then storedBlock input
    else if kind = 1 then
      block input (← codeOf fixedLiterals) (← codeOf (List.replicate 32 5)) (8 * input.size + 1)
    else if kind = 2 then
      let (literals, distances) ← ownCodes input
      block input literals distances (8 * input.size + 1)
    else throw .corrupt
    if last = 1 then return () else blocks input n

end Inflate

def inflate (input : ByteArray) : Option ByteArray :=
  match (Inflate.blocks input (8 * input.size + 1)).run {} with
  | .ok _ s => some s.output
  | .error .truncated s => some s.output
  | .error .corrupt _ => none

end SignedManifest.Zip
