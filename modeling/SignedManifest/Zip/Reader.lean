import SignedManifest.Text.Lossy
import SignedManifest.Zip.Inflate
import SignedManifest.Zip.Writer
/-!
Reading zip archives. The end record is sought from the end of the file backwards; a candidate whose
central directory does not hold up gives way to an earlier one. Bytes before the archive and after it
do no harm. The directory is an index by name: a name that occurs again stands where it first stood,
with the data of its last occurrence.
-/
namespace SignedManifest.Zip

/-- The characters of the second half of the old code page for names. -/
def codePage : Array Nat := #[
  0xc7, 0xfc, 0xe9, 0xe2, 0xe4, 0xe0, 0xe5, 0xe7, 0xea, 0xeb, 0xe8, 0xef, 0xee, 0xec, 0xc4, 0xc5,
  0xc9, 0xe6, 0xc6, 0xf4, 0xf6, 0xf2, 0xfb, 0xf9, 0xff, 0xd6, 0xdc, 0xa2, 0xa3, 0xa5, 0x20a7,
  0x192, 0xe1, 0xed, 0xf3, 0xfa, 0xf1, 0xd1, 0xaa, 0xba, 0xbf, 0x2310, 0xac, 0xbd, 0xbc, 0xa1,
  0xab, 0xbb, 0x2591, 0x2592, 0x2593, 0x2502, 0x2524, 0x2561, 0x2562, 0x2556, 0x2555, 0x2563,
  0x2551, 0x2557, 0x255d, 0x255c, 0x255b, 0x2510, 0x2514, 0x2534, 0x252c, 0x251c, 0x2500, 0x253c,
  0x255e, 0x255f, 0x255a, 0x2554, 0x2569, 0x2566, 0x2560, 0x2550, 0x256c, 0x2567, 0x2568, 0x2564,
  0x2565, 0x2559, 0x2558, 0x2552, 0x2553, 0x256b, 0x256a, 0x2518, 0x250c, 0x2588, 0x2584, 0x258c,
  0x2590, 0x2580, 0x3b1, 0xdf, 0x393, 0x3c0, 0x3a3, 0x3c3, 0xb5, 0x3c4, 0x3a6, 0x398, 0x3a9,
  0x3b4, 0x221e, 0x3c6, 0x3b5, 0x2229, 0x2261, 0xb1, 0x2265, 0x2264, 0x2320, 0x2321, 0xf7, 0x2248,
  0xb0, 0x2219, 0xb7, 0x221a, 0x207f, 0xb2, 0x25a0, 0xa0]

def numberAt? (b : ByteArray) (i : Nat) : (width : Nat) → Option Nat
  | 0 => some 0
  | w + 1 => do
    let low ← b[i]?
    let high ← numberAt? b (i + 1) w
    return low.toNat + 256 * high

def slice? (b : ByteArray) (start size : Nat) : Option ByteArray :=
  if start + size ≤ b.size then some (b.extract start (start + size)) else none

structure Header where
  name : String
  encrypted : Bool
  method : Nat
  time : Nat
  date : Nat
  crc : Nat
  compressedSize : Nat
  /-- Where the local header stands in the file. -/
  position : Nat
  deriving Inhabited

def nameText (utf8 : Bool) (bytes : ByteArray) : String :=
  if utf8 then Text.lossy bytes.toList
  else String.ofList (bytes.toList.map fun b =>
    if b.toNat < 128 then Char.ofNat b.toNat else Char.ofNat (codePage.getD (b.toNat - 128) 0))

def wideField? (b : ByteArray) (stop : Nat) : (fuel : Nat) → Nat → Option Nat
  | 0, _ => none
  | n + 1, i => do
    if i + 4 > stop then none
    if (← numberAt? b i 2) = wideKind then return i + 4
    wideField? b stop n (i + 4 + (← numberAt? b (i + 2) 2))

/-- The number itself, or the wide one at a position that it stands for, with the position behind it. -/
def wideNumber? (b : ByteArray) (i n : Nat) : Option (Nat × Nat) :=
  if n = elsewhere then (numberAt? b i 8).map (·, i + 8) else some (n, i)

def wideNumbers? (b : ByteArray) (i extraSize size compressedSize offset : Nat) : Option (Nat × Nat) := do
  let i ← wideField? b (i + extraSize) (extraSize + 1) i
  let (_, i) ← wideNumber? b i size
  let (compressedSize, i) ← wideNumber? b i compressedSize
  let (offset, _) ← wideNumber? b i offset
  return (compressedSize, offset)

/-- The central header at a position and the position after it. Offsets count from `base`. -/
def header? (b : ByteArray) (base i : Nat) : Option (Header × Nat) := do
  if (← numberAt? b i 4) ≠ centralSignature then none
  let flags ← numberAt? b (i + 8) 2
  let compressedSize ← numberAt? b (i + 20) 4
  let size ← numberAt? b (i + 24) 4
  let nameSize ← numberAt? b (i + 28) 2
  let extraSize ← numberAt? b (i + 30) 2
  let commentSize ← numberAt? b (i + 32) 2
  let offset ← numberAt? b (i + 42) 4
  let name ← slice? b (i + 46) nameSize
  let next := i + 46 + nameSize + extraSize + commentSize
  if next > b.size then none
  let numbers := (wideNumbers? b (i + 46 + nameSize) extraSize size compressedSize offset).getD
    (compressedSize, offset)
  return ({ name := nameText (flags / 0x800 % 2 == 1) name
            encrypted := flags % 2 == 1
            method := ← numberAt? b (i + 10) 2
            time := ← numberAt? b (i + 12) 2
            date := ← numberAt? b (i + 14) 2
            crc := ← numberAt? b (i + 16) 4
            compressedSize := numbers.1
            position := numbers.2 + base }, next)

def headers? (b : ByteArray) (base i : Nat) : Nat → Option (List Header)
  | 0 => some []
  | n + 1 => do
    let (h, next) ← header? b base i
    return h :: (← headers? b base next n)

structure Directory where
  headers : List Header
  comment : ByteArray
  deriving Inhabited

def hasSignature (b : ByteArray) (i signature : Nat) : Bool := numberAt? b i 4 == some signature

def wideHeaders? (b : ByteArray) (i : Nat) : Option (List Header) := do
  if i < 20 ∨ !hasSignature b (i - 20) locatorSignature then none
  let wideEnd ← numberAt? b (i - 12) 8
  if !hasSignature b wideEnd wideEndSignature then none
  headers? b 0 (← numberAt? b (wideEnd + 48) 8) (← numberAt? b (wideEnd + 24) 8)

/-- The directory that the end record at a position describes. The directory's offset may be too
small by the size of what stands before the archive. -/
def directoryAt? (b : ByteArray) (i : Nat) : Option Directory := do
  if !hasSignature b i endSignature then none
  let disk ← numberAt? b (i + 4) 2
  let startDisk ← numberAt? b (i + 6) 2
  let onDisk ← numberAt? b (i + 8) 2
  let count ← numberAt? b (i + 10) 2
  let offset ← numberAt? b (i + 16) 4
  let comment ← slice? b (i + 22) (← numberAt? b (i + 20) 2)
  if count = manyEntries ∨ offset = elsewhere then
    if let some headers := wideHeaders? b i then return ⟨headers, comment⟩
  let start ←
    if count = 0 then some (max i offset)
    else if i ≤ offset then none
    else
      ((List.range (i - 3 - offset)).find? fun k =>
        hasSignature b (offset + k) centralSignature).map (offset + ·)
  if disk ≠ startDisk then none
  return ⟨← headers? b (start - offset) start onDisk, comment⟩

def indexHeader (l : List Header) (h : Header) : List Header :=
  if l.any (·.name == h.name) then l.map fun g => if g.name == h.name then h else g
  else l ++ [h]

def Directory.names (d : Directory) : List String := d.headers.map (·.name)

def Directory.indexed (d : Directory) : Directory :=
  { d with headers := d.headers.foldl indexHeader [] }

theorem indexHeader_names (l : List Header) (h : Header) :
    (indexHeader l h).map Header.name =
      if h.name ∈ l.map Header.name then l.map Header.name else l.map Header.name ++ [h.name] := by
  have known : l.any (·.name == h.name) = true ↔ h.name ∈ l.map Header.name := by simp
  unfold indexHeader
  by_cases here : h.name ∈ l.map Header.name
  · rw [if_pos (known.mpr here), if_pos here, List.map_map]
    refine List.map_congr_left fun g _ => ?_
    by_cases same : g.name = h.name <;> simp [same]
  · rw [if_neg (mt known.mp here), if_neg here, List.map_append]
    rfl

theorem indexHeader_nodup {l : List Header} (distinct : (l.map Header.name).Nodup) (h : Header) :
    ((indexHeader l h).map Header.name).Nodup := by
  rw [indexHeader_names]
  split
  · exact distinct
  · rename_i fresh
    rw [List.nodup_append]
    refine ⟨distinct, by simp, fun name here other alone => ?_⟩
    obtain rfl := List.mem_singleton.mp alone
    exact fun same => fresh (same ▸ here)

theorem Directory.indexed_nodup (d : Directory) : d.indexed.names.Nodup :=
  List.foldlRecOn (motive := fun l => (l.map Header.name).Nodup) d.headers indexHeader List.nodup_nil
    fun _ distinct h _ => indexHeader_nodup distinct h

def directoryBelow? (b : ByteArray) : Nat → Option Directory
  | 0 => none
  | i + 1 => (directoryAt? b i).or (directoryBelow? b i)

def directory? (b : ByteArray) : Option Directory :=
  (directoryBelow? b (b.size - 21)).map Directory.indexed

/-- Why an entry cannot be read: its header is unsound or of an unknown kind, or its content is not
what its checksum says. -/
inductive ContentFault where
  | header
  | content
  deriving DecidableEq

def content (b : ByteArray) (h : Header) : Except ContentFault ByteArray := do
  if h.encrypted then throw .header
  let some nameSize := numberAt? b (h.position + 26) 2 | throw .header
  let some extraSize := numberAt? b (h.position + 28) 2 | throw .header
  if !hasSignature b h.position localSignature then throw .header
  let start := h.position + 30 + nameSize + extraSize
  let raw := b.extract start (start + h.compressedSize)
  let bytes ←
    if h.method = 0 then pure raw
    else if h.method = 8 then
      match inflate raw with
      | some bytes => pure bytes
      | none => throw .content
    else throw .header
  if (crc32 bytes).toNat = h.crc then return bytes else throw .content

/-- What a reader knows of an archive that it opened: the names of its entries in order, each once, and
what comes of reading them. -/
structure Index where
  names : List String
  content? : String → Option (Except ContentFault ByteArray)
  distinct : names.Nodup
  listed : ∀ name, (content? name).isSome = true ↔ name ∈ names

abbrev Reader := ByteArray → Option Index

def Directory.index (d : Directory) (b : ByteArray) : Index where
  names := d.indexed.names
  content? name := (d.indexed.headers.find? (·.name == name)).map (content b)
  distinct := d.indexed_nodup
  listed name := by simp [Directory.names]

def reader : Reader := fun b => (directoryBelow? b (b.size - 21)).map (·.index b)

def Header.timestamp (h : Header) : String :=
  let two (n : Nat) : String := (if n < 10 then "0" else "") ++ toString n
  toString (1980 + h.date / 512) ++ "-" ++ two (h.date / 32 % 16) ++ "-" ++ two (h.date % 32) ++
    " " ++ two (h.time / 2048) ++ ":" ++ two (h.time / 32 % 64) ++ ":" ++ two (h.time % 32 * 2)

end SignedManifest.Zip
