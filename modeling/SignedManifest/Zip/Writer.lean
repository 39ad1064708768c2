/-!
Writing zip archives. Entries are stored as they are, under one fixed time, so equal entries and
comments give equal bytes. A number that has no room in its field stands in the wide fields that extend
the format.
-/
namespace SignedManifest.Zip

/-! ### Checksums -/

def crcBit (r : Nat) : Nat := if r % 2 = 1 then r / 2 ^^^ 0xedb88320 else r / 2

def crcStep (r : Nat) (b : UInt8) : Nat :=
  crcBit (crcBit (crcBit (crcBit (crcBit (crcBit (crcBit (crcBit (r ^^^ b.toNat))))))))

def crc32 (bytes : ByteArray) : UInt32 :=
  .ofNat (bytes.foldl crcStep 0xffffffff ^^^ 0xffffffff)

/-! ### Archives -/

structure Entry where
  name : String
  bytes : ByteArray
  deriving Inhabited

structure Archive where
  comment : String
  entries : List Entry
  deriving Inhabited

def little (n : Nat) : (width : Nat) → List UInt8
  | 0 => []
  | w + 1 => UInt8.ofNat n :: little (n / 256) w

def bytesOf (fields : List (Nat × Nat)) : ByteArray :=
  ⟨(fields.flatMap fun (width, n) => little n width).toArray⟩

def localSignature : Nat := 0x04034b50
def centralSignature : Nat := 0x02014b50
def endSignature : Nat := 0x06054b50
def wideEndSignature : Nat := 0x06064b50
def locatorSignature : Nat := 0x07064b50

/-- Stands in a field of four bytes for a number that has no room there. -/
def elsewhere : Nat := 0xffffffff

def manyEntries : Nat := 0xffff

def narrow (n : Nat) : Nat := min n elsewhere

def wideKind : Nat := 1

def extraField (numbers : List Nat) : List (Nat × Nat) :=
  match numbers.filter (elsewhere ≤ ·) with
  | [] => []
  | wide => (2, wideKind) :: (2, 8 * wide.length) :: wide.map (8, ·)

def version (extra : Nat) : Nat := if extra = 0 then 20 else 45

def flags : Nat := 0x800

def fixedDate : Nat := 33

def fixedTime : Nat := 0

def Entry.sharedFields (e : Entry) (extra : Nat) : List (Nat × Nat) :=
  [(2, version extra), (2, flags), (2, 0), (2, fixedTime), (2, fixedDate), (4, (crc32 e.bytes).toNat),
    (4, narrow e.bytes.size), (4, narrow e.bytes.size), (2, e.name.utf8ByteSize), (2, extra)]

def Entry.localExtra (e : Entry) : ByteArray := bytesOf (extraField [e.bytes.size, e.bytes.size])

def Entry.localRecord (e : Entry) : ByteArray :=
  bytesOf ((4, localSignature) :: e.sharedFields e.localExtra.size) ++ e.name.toUTF8 ++ e.localExtra ++
    e.bytes

def attributes : Nat := 0o100644 * 65536

def Entry.centralExtra (e : Entry) (offset : Nat) : ByteArray :=
  bytesOf (extraField [e.bytes.size, e.bytes.size, offset])

def Entry.centralRecord (e : Entry) (offset : Nat) : ByteArray :=
  let extra := e.centralExtra offset
  bytesOf ((4, centralSignature) :: (2, 0x300 + version extra.size) :: e.sharedFields extra.size ++
    [(2, 0), (2, 0), (2, 0), (4, attributes), (4, narrow offset)]) ++ e.name.toUTF8 ++ extra

def records (offset : Nat) : List Entry → ByteArray × ByteArray
  | [] => (ByteArray.empty, ByteArray.empty)
  | e :: es =>
    let here := e.localRecord
    let (files, directory) := records (offset + here.size) es
    (here ++ files, e.centralRecord offset ++ directory)

def commentLimit : Nat := 65535

/-- The wide end record, and the record that tells where it stands; nothing where the end record has
room for the numbers. -/
def wideEndFields (count files directory : Nat) : List (Nat × Nat) :=
  if count < manyEntries ∧ files < elsewhere ∧ directory < elsewhere then []
  else [(4, wideEndSignature), (8, 44), (2, 0x32d), (2, 45), (4, 0), (4, 0), (8, count), (8, count),
    (8, directory), (8, files), (4, locatorSignature), (4, 0), (8, files + directory), (4, 1)]

def Archive.endFields (a : Archive) (files directory : Nat) : List (Nat × Nat) :=
  let count := min a.entries.length manyEntries
  [(4, endSignature), (2, 0), (2, 0), (2, count), (2, count), (4, narrow directory), (4, narrow files),
    (2, a.comment.utf8ByteSize)]

def Archive.encode (a : Archive) : ByteArray :=
  let (files, directory) := records 0 a.entries
  files ++ directory ++ bytesOf (wideEndFields a.entries.length files.size directory.size) ++
    bytesOf (a.endFields files.size directory.size) ++ a.comment.toUTF8

end SignedManifest.Zip
