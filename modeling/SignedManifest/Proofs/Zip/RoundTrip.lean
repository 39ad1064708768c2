import SignedManifest.Proofs.Text.Utf8
import SignedManifest.Proofs.Zip.Bytes

/-!
Reading archives back. The reader finds the end record that the writer put last, the directory where
that record or the wide one before it says, a header for each entry and its content where the header
says. The comment stands behind all of them, so it must not pass for an end record itself.
-/
namespace SignedManifest.Zip
open Text

def listing? (b : ByteArray) : Option (List (String × Except ContentFault ByteArray)) :=
  (directory? b).map fun directory => directory.headers.map fun h => (h.name, content b h)

/-- Reading the bytes of an archive gives back the entries that were written. -/
def Archive.ReadsBack (a : Archive) : Prop :=
  listing? a.encode = some (a.entries.map fun e => (e.name, .ok e.bytes))

variable {b : ByteArray} {i offset stop : Nat} {fields : List (Nat × Nat)} {e : Entry} {es : List Entry}

/-! ### Names -/

theorem toList_loop (bytes : ByteArray) (i : Nat) (r : List UInt8) :
    ByteArray.toList.loop bytes i r = r.reverse ++ bytes.data.toList.drop i := by
  fun_induction ByteArray.toList.loop bytes i r with
  | case1 i r inside ih =>
    have bound : i < bytes.data.toList.length := by simpa using inside
    rw [ih, List.drop_eq_getElem_cons bound]
    simp [ByteArray.get!, getElem!_pos bytes.data i (by simpa using inside)]
  | case2 i r outside =>
    have past : bytes.data.toList.length ≤ i := by simpa using outside
    simp [List.drop_eq_nil_of_le past]

theorem toList_eq (bytes : ByteArray) : bytes.toList = bytes.data.toList := by
  rw [ByteArray.toList, toList_loop]
  simp

theorem nameText_utf8 (s : String) : nameText true ⟨(utf8 s).toArray⟩ = s := by
  simp [nameText, toList_eq, lossy, lossyChars_utf8]

/-! ### Numbers in two places -/

theorem narrow_fits (n : Nat) : narrow n % capacity 4 = narrow n :=
  Nat.mod_eq_of_lt (Nat.lt_of_le_of_lt (Nat.min_le_right n elsewhere) (by decide))

theorem narrow_of_wide {n : Nat} (wide : elsewhere ≤ n) : narrow n = elsewhere := Nat.min_eq_right wide

theorem narrow_of_not_wide {n : Nat} (small : ¬ elsewhere ≤ n) : narrow n = n :=
  Nat.min_eq_left (Nat.le_of_not_le small)

def wideFields (numbers : List Nat) : List (Nat × Nat) :=
  (numbers.filter (elsewhere ≤ ·)).map (8, ·)

theorem wideFields_append (l m : List Nat) : wideFields (l ++ m) = wideFields l ++ wideFields m := by
  simp [wideFields]

theorem extent_wideFields (numbers : List Nat) :
    extent (wideFields numbers) = 8 * (numbers.filter (elsewhere ≤ ·)).length := by
  rw [wideFields]
  induction numbers.filter (elsewhere ≤ ·) with
  | nil => rfl
  | cons n l ih => simp [extent, ih, Nat.mul_add, Nat.add_comm]

theorem extraField_eq (numbers : List Nat) :
    wideFields numbers = [] ∧ extraField numbers = [] ∨
      wideFields numbers ≠ [] ∧ extraField numbers =
        (2, wideKind) :: (2, extent (wideFields numbers)) :: wideFields numbers := by
  rw [extent_wideFields, wideFields, extraField]
  cases numbers.filter (elsewhere ≤ ·) with
  | nil => exact .inl ⟨rfl, rfl⟩
  | cons n l => exact .inr ⟨List.cons_ne_nil _ _, rfl⟩

theorem extent_extraField (numbers : List Nat) :
    extent (extraField numbers) ≤ 4 + 8 * numbers.length := by
  have few := List.length_filter_le (elsewhere ≤ ·) numbers
  rcases extraField_eq numbers with ⟨_, absent⟩ | ⟨_, present⟩
  · simp [absent, extent]
  · rw [present]
    simp only [extent, extent_wideFields]
    omega

theorem extent_extraField_fits {numbers : List Nat} (few : numbers.length ≤ 3) :
    extent (extraField numbers) % capacity 2 = extent (extraField numbers) := by
  have bound := extent_extraField numbers
  exact Nat.mod_eq_of_lt (Nat.lt_of_le_of_lt (by omega : _ ≤ 28) (by decide))

theorem wideNumber?_narrow {n : Nat} (fits : n < capacity 8)
    (stands : At b i (fieldBytes (wideFields [n]))) :
    wideNumber? b i (narrow n) = some (n, i + extent (wideFields [n])) := by
  by_cases wide : elsewhere ≤ n
  · have field : wideFields [n] = [(8, n)] := by simp [wideFields, wide]
    rw [field] at stands ⊢
    obtain ⟨read, -⟩ := stands.reads
    rw [wideNumber?, if_pos (narrow_of_wide wide), read, Nat.mod_eq_of_lt fits]
    rfl
  · have field : wideFields [n] = [] := by simp [wideFields, wide]
    rw [narrow_of_not_wide wide, field, wideNumber?, if_neg (fun same => wide (Nat.le_of_eq same.symm))]
    rfl

theorem wideField?_first (stands : At b i (fieldBytes ((2, wideKind) :: fields)))
    (room : i + 4 ≤ stop) (n : Nat) : wideField? b stop (n + 1) i = some (i + 4) := by
  obtain ⟨kind, -⟩ := stands.reads
  have known : wideKind % capacity 2 = wideKind := by decide
  rw [wideField?, if_neg (Nat.not_lt.mpr room), kind, known]
  simp

theorem wideNumbers?_extraField {size : Nat} (sized : size < capacity 8) (placed : offset < capacity 8)
    (stands : At b i (fieldBytes (extraField [size, size, offset]))) :
    (wideNumbers? b i (extent (extraField [size, size, offset])) (narrow size) (narrow size)
      (narrow offset)).getD (narrow size, narrow offset) = (size, offset) := by
  rcases extraField_eq [size, size, offset] with ⟨none, absent⟩ | ⟨_, present⟩
  · have small : ¬ elsewhere ≤ size ∧ ¬ elsewhere ≤ offset := by
      simpa [wideFields] using none
    rw [absent, narrow_of_not_wide small.1, narrow_of_not_wide small.2]
    simp [wideNumbers?, wideField?, extent]
  · rw [present] at stands ⊢
    have split : wideFields [size, size, offset] =
        wideFields [size] ++ (wideFields [size] ++ wideFields [offset]) := by
      rw [← wideFields_append, ← wideFields_append]
      rfl
    have found : wideField? b (i + extent ((2, wideKind) :: (2, extent (wideFields [size, size, offset])) ::
        wideFields [size, size, offset])) (extent ((2, wideKind) ::
        (2, extent (wideFields [size, size, offset])) :: wideFields [size, size, offset]) + 1) i =
        some (i + 4) :=
      wideField?_first stands (by simp only [extent]; omega) _
    have numbers : At b (i + 4) (fieldBytes (wideFields [size, size, offset])) :=
      At.right (l := fieldBytes [(2, wideKind), (2, extent (wideFields [size, size, offset]))]) stands
    rw [split, fieldBytes_append, fieldBytes_append] at numbers
    have first := wideNumber?_narrow sized numbers.left
    have behind := numbers.right
    rw [fieldBytes_length] at behind
    have second := wideNumber?_narrow sized behind.left
    have last := behind.right
    rw [fieldBytes_length] at last
    have third := wideNumber?_narrow placed last
    simp only [wideNumbers?, found, first, second, third, Option.bind_eq_bind, Option.bind_some,
      Option.pure_def, Option.getD_some]

/-! ### Headers -/

def Entry.header (e : Entry) (offset : Nat) : Header where
  name := e.name
  encrypted := false
  method := 0
  time := fixedTime
  date := fixedDate
  crc := (crc32 e.bytes).toNat
  compressedSize := e.bytes.size
  position := offset

def Entry.localFields (e : Entry) : List (Nat × Nat) :=
  (4, localSignature) :: e.sharedFields (extent (extraField [e.bytes.size, e.bytes.size]))

def Entry.centralFields (e : Entry) (offset : Nat) : List (Nat × Nat) :=
  let extra := extent (extraField [e.bytes.size, e.bytes.size, offset])
  (4, centralSignature) :: (2, 0x300 + version extra) :: e.sharedFields extra ++
    [(2, 0), (2, 0), (2, 0), (4, attributes), (4, narrow offset)]

theorem localRecord_data (e : Entry) :
    e.localRecord.data.toList = fieldBytes e.localFields ++ (utf8 e.name ++
      (fieldBytes (extraField [e.bytes.size, e.bytes.size]) ++ e.bytes.data.toList)) := by
  simp [Entry.localRecord, Entry.localFields, Entry.localExtra, ByteArray.data_append, bytesOf_data,
    bytesOf_size, utf8]

theorem centralRecord_data (e : Entry) (offset : Nat) :
    (e.centralRecord offset).data.toList = fieldBytes (e.centralFields offset) ++ (utf8 e.name ++
      fieldBytes (extraField [e.bytes.size, e.bytes.size, offset])) := by
  simp [Entry.centralRecord, Entry.centralFields, Entry.centralExtra, ByteArray.data_append,
    bytesOf_data, bytesOf_size, utf8]

theorem centralFields_length (e : Entry) (offset : Nat) :
    (fieldBytes (e.centralFields offset)).length = 46 := by
  simp [fieldBytes_length, extent, Entry.centralFields, Entry.sharedFields]

theorem localFields_length (e : Entry) : (fieldBytes e.localFields).length = 30 := by
  simp [fieldBytes_length, extent, Entry.localFields, Entry.sharedFields]

theorem utf8_length (s : String) : (utf8 s).length = s.utf8ByteSize := by
  simp [utf8]

theorem localRecord_size (e : Entry) :
    e.localRecord.size = 30 + e.name.utf8ByteSize +
      extent (extraField [e.bytes.size, e.bytes.size]) + e.bytes.size := by
  rw [← ByteArray.size_data, ← Array.length_toList, localRecord_data]
  simp only [List.length_append, localFields_length, utf8_length, fieldBytes_length (extraField _),
    Array.length_toList, ByteArray.size_data]
  omega

theorem centralRecord_size (e : Entry) (offset : Nat) :
    (e.centralRecord offset).size = 46 + e.name.utf8ByteSize +
      extent (extraField [e.bytes.size, e.bytes.size, offset]) := by
  rw [← ByteArray.size_data, ← Array.length_toList, centralRecord_data]
  simp only [List.length_append, centralFields_length, utf8_length, fieldBytes_length (extraField _)]
  omega

theorem hasSignature_of_number {n : Nat} (fits : n < capacity 4)
    (read : numberAt? b i 4 = some (n % capacity 4)) : hasSignature b i n = true := by
  rw [hasSignature, read, Nat.mod_eq_of_lt fits]
  exact beq_self_eq_true _

structure Entry.FitsAt (e : Entry) (offset : Nat) : Prop where
  name : e.name.utf8ByteSize < capacity 2
  size : e.bytes.size < capacity 8
  offset : offset < capacity 8

theorem header?_record (fits : e.FitsAt offset)
    (stands : At b i (e.centralRecord offset).data.toList) :
    header? b 0 i = some (e.header offset, i + (e.centralRecord offset).size) := by
  have inside := stands.inside
  rw [centralRecord_data] at stands inside
  have reads := stands.left.reads
  simp only [Entry.centralFields, Entry.sharedFields, List.cons_append, List.nil_append, Reads,
    Nat.add_assoc, Nat.reduceAdd, and_true] at reads
  obtain ⟨signature, -, -, flagged, stored, time, date, crc, compressed, size, nameSize, extra, comment,
    -, -, -, position⟩ := reads
  have checksum : (crc32 e.bytes).toNat < capacity 4 := (crc32 e.bytes).toNat_lt
  rw [Nat.mod_eq_of_lt checksum] at crc
  rw [narrow_fits] at compressed size position
  rw [Nat.mod_eq_of_lt fits.name] at nameSize
  rw [extent_extraField_fits (by simp)] at extra
  have name := stands.right.left.slice
  have wide := stands.right.right
  rw [centralFields_length, utf8_length] at name wide
  have numbers := wideNumbers?_extraField fits.size fits.offset wide
  rw [List.length_append, List.length_append, centralFields_length, utf8_length, fieldBytes_length]
    at inside
  have bound : ¬ i + 46 + e.name.utf8ByteSize +
      extent (extraField [e.bytes.size, e.bytes.size, offset]) > b.size := by
    omega
  unfold header?
  simp only [signature, flagged, stored, time, date, crc, compressed, size, nameSize, extra, comment,
    position, name, numbers, Option.bind_eq_bind, Option.bind_some, Option.pure_def, Nat.zero_mod,
    Nat.add_zero, if_neg bound]
  have signed : ¬ centralSignature % capacity 4 ≠ centralSignature := by decide
  have marked : (flags % capacity 2 / 0x800 % 2 == 1) = true := by decide
  rw [if_neg signed, marked, nameText_utf8, centralRecord_size, ← Nat.add_assoc, ← Nat.add_assoc]
  rfl

/-! ### Entries one after the other -/

def headersFrom (offset : Nat) : List Entry → List Header
  | [] => []
  | e :: es => e.header offset :: headersFrom (offset + e.localRecord.size) es

theorem records_cons (offset : Nat) (e : Entry) (es : List Entry) :
    (records offset (e :: es)).1 =
        e.localRecord ++ (records (offset + e.localRecord.size) es).1 ∧
      (records offset (e :: es)).2 =
        e.centralRecord offset ++ (records (offset + e.localRecord.size) es).2 :=
  ⟨rfl, rfl⟩

theorem headers?_records (names : ∀ e ∈ es, e.name.utf8ByteSize < capacity 2)
    (room : offset + (records offset es).1.size < capacity 8)
    (stands : At b i (records offset es).2.data.toList) :
    headers? b 0 i es.length = some (headersFrom offset es) := by
  induction es generalizing i offset with
  | nil => rfl
  | cons e es ih =>
    obtain ⟨files, directory⟩ := records_cons offset e es
    rw [files, ByteArray.size_append] at room
    rw [directory, ByteArray.data_append, Array.toList_append] at stands
    have large : e.bytes.size ≤ e.localRecord.size := by
      rw [localRecord_size]
      omega
    have first := header?_record ⟨names e (by simp), by omega, by omega⟩ stands.left
    have behind := stands.right
    rw [Array.length_toList, ByteArray.size_data] at behind
    have rest := ih (fun f member => names f (List.mem_cons_of_mem _ member)) (by omega) behind
    simp only [List.length_cons, headers?, first, rest, Option.bind_eq_bind, Option.bind_some,
      Option.pure_def]
    rfl

theorem length_le_directory (offset : Nat) (es : List Entry) :
    46 * es.length ≤ (records offset es).2.size := by
  induction es generalizing offset with
  | nil => simp
  | cons e es ih =>
    have rest := ih (offset + e.localRecord.size)
    rw [(records_cons offset e es).2, ByteArray.size_append, centralRecord_size, List.length_cons]
    omega

/-! ### Content -/

theorem content_record (fits : e.FitsAt offset) (stands : At b offset e.localRecord.data.toList) :
    content b (e.header offset) = .ok e.bytes := by
  rw [localRecord_data] at stands
  have reads := stands.left.reads
  simp only [Entry.localFields, Entry.sharedFields, Reads, Nat.add_assoc, Nat.reduceAdd, and_true]
    at reads
  obtain ⟨signature, -, -, -, -, -, -, -, -, nameSize, extra⟩ := reads
  rw [Nat.mod_eq_of_lt fits.name] at nameSize
  rw [extent_extraField_fits (by simp)] at extra
  have behind := stands.right.right.right.extract
  rw [localFields_length, utf8_length, fieldBytes_length, Array.length_toList, ByteArray.size_data]
    at behind
  have sealed : hasSignature b offset localSignature = true :=
    hasSignature_of_number (by decide) signature
  rw [Array.toArray_toList] at behind
  unfold content
  simp only [Entry.header, nameSize, extra, sealed, behind, Bool.not_true, Bool.false_eq_true,
    ↓reduceIte, pure_bind]
  rfl

theorem contents_records (names : ∀ e ∈ es, e.name.utf8ByteSize < capacity 2)
    (room : offset + (records offset es).1.size < capacity 8)
    (stands : At b offset (records offset es).1.data.toList) :
    (headersFrom offset es).map (fun h => (h.name, content b h)) =
      es.map fun e => (e.name, .ok e.bytes) := by
  induction es generalizing offset with
  | nil => rfl
  | cons e es ih =>
    obtain ⟨files, _⟩ := records_cons offset e es
    rw [files, ByteArray.size_append] at room
    rw [files, ByteArray.data_append, Array.toList_append] at stands
    have large : e.bytes.size ≤ e.localRecord.size := by
      rw [localRecord_size]
      omega
    have first := content_record ⟨names e (by simp), by omega, by omega⟩ stands.left
    have behind := stands.right
    rw [Array.length_toList, ByteArray.size_data] at behind
    have rest := ih (fun f member => names f (List.mem_cons_of_mem _ member)) (by omega) behind
    rw [headersFrom, List.map_cons, List.map_cons, first, rest]
    rfl

/-! ### The directory -/

theorem headersFrom_names (offset : Nat) (es : List Entry) :
    (headersFrom offset es).map Header.name = es.map Entry.name := by
  induction es generalizing offset with
  | nil => rfl
  | cons e es ih => simp [headersFrom, Entry.header, ih]

theorem foldl_indexHeader {l hs : List Header} (distinct : ((l ++ hs).map Header.name).Nodup) :
    hs.foldl indexHeader l = l ++ hs := by
  induction hs generalizing l with
  | nil => simp
  | cons h hs ih =>
    have fresh : l.any (·.name == h.name) = false := by
      rw [List.map_append, List.map_cons, List.nodup_append] at distinct
      simp only [List.any_eq_false, beq_iff_eq]
      exact fun g member => distinct.2.2 _ (List.mem_map_of_mem member) _ List.mem_cons_self
    rw [List.foldl_cons, indexHeader, fresh]
    simpa using ih (l := l ++ [h]) (by simpa using distinct)

def Archive.files (a : Archive) : ByteArray := (records 0 a.entries).1

def Archive.directory (a : Archive) : ByteArray := (records 0 a.entries).2

def Archive.wideEnd (a : Archive) : List (Nat × Nat) :=
  wideEndFields a.entries.length a.files.size a.directory.size

def Archive.ends (a : Archive) : List (Nat × Nat) := a.endFields a.files.size a.directory.size

def Archive.endPosition (a : Archive) : Nat := a.files.size + a.directory.size + extent a.wideEnd

theorem ends_length (a : Archive) : (fieldBytes a.ends).length = 22 := by
  simp [fieldBytes_length, extent, Archive.ends, Archive.endFields]

theorem encode_data (a : Archive) :
    a.encode.data.toList = a.files.data.toList ++ (a.directory.data.toList ++
      (fieldBytes a.wideEnd ++ (fieldBytes a.ends ++ utf8 a.comment))) := by
  simp [Archive.encode, Archive.files, Archive.directory, Archive.wideEnd, Archive.ends,
    ByteArray.data_append, bytesOf_data, utf8]

theorem encode_size (a : Archive) :
    a.encode.size = a.endPosition + 22 + a.comment.utf8ByteSize := by
  rw [← ByteArray.size_data, ← Array.length_toList, encode_data]
  simp only [List.length_append, ends_length, utf8_length, fieldBytes_length a.wideEnd,
    Array.length_toList, ByteArray.size_data, Archive.endPosition]
  omega

theorem files_stand (a : Archive) : At a.encode 0 a.files.data.toList :=
  ⟨[], _, encode_data a, rfl⟩

theorem directory_stands (a : Archive) : At a.encode a.files.size a.directory.data.toList :=
  ⟨a.files.data.toList, _, encode_data a, by simp⟩

theorem wideEnd_stands (a : Archive) :
    At a.encode (a.files.size + a.directory.size) (fieldBytes a.wideEnd) :=
  ⟨a.files.data.toList ++ a.directory.data.toList, fieldBytes a.ends ++ utf8 a.comment,
    by simp [encode_data], by simp⟩

theorem ends_stand (a : Archive) : At a.encode a.endPosition (fieldBytes a.ends ++ utf8 a.comment) :=
  ⟨a.files.data.toList ++ (a.directory.data.toList ++ fieldBytes a.wideEnd), [],
    by simp [encode_data], by simp [Archive.endPosition, fieldBytes_length, Nat.add_assoc]⟩

/-- No two neighbouring bytes of a comment are a length that the rest behind them has. -/
def isSilent : List UInt8 → Bool
  | low :: high :: rest => rest.length < low.toNat + 256 * high.toNat && isSilent (high :: rest)
  | _ => true

/-- The format can hold an archive, and nothing behind its end record looks like another one. -/
structure Archive.Fits (a : Archive) : Prop where
  names : ∀ e ∈ a.entries, e.name.utf8ByteSize < capacity 2
  distinct : (a.entries.map Entry.name).Nodup
  room : a.files.size + a.directory.size < capacity 8
  comment : a.comment.utf8ByteSize < capacity 2
  silent : isSilent (utf8 a.comment) = true

theorem Archive.fits_of_checks {a : Archive} (checks :
    (∀ e ∈ a.entries, e.name.utf8ByteSize < capacity 2) ∧ (a.entries.map Entry.name).Nodup ∧
    a.files.size + a.directory.size < capacity 8 ∧ a.comment.utf8ByteSize < capacity 2 ∧
    isSilent (utf8 a.comment) = true) : a.Fits := by
  obtain ⟨names, distinct, room, comment, silent⟩ := checks
  exact ⟨names, distinct, room, comment, silent⟩

theorem directory_signed {e : Entry} (stands : At b i (records offset (e :: es)).2.data.toList) :
    hasSignature b i centralSignature = true := by
  rw [(records_cons offset e es).2, ByteArray.data_append, Array.toList_append,
    centralRecord_data] at stands
  have reads := stands.left.left.reads
  simp only [Entry.centralFields, List.cons_append, Reads] at reads
  exact hasSignature_of_number (by decide) reads.1

theorem directory_search {a : Archive} (entries : a.entries.length ≠ 0) :
    ¬ a.endPosition ≤ a.files.size ∧
      (List.range (a.endPosition - 3 - a.files.size)).find? (fun k =>
        hasSignature a.encode (a.files.size + k) centralSignature) = some 0 := by
  obtain ⟨e, es, spelled⟩ := List.exists_cons_of_length_pos (Nat.pos_of_ne_zero entries)
  have filled : 46 * a.entries.length ≤ a.directory.size := length_le_directory 0 a.entries
  refine ⟨by rw [Archive.endPosition]; omega, ?_⟩
  rw [List.find?_range_eq_some]
  refine ⟨?_, ?_, by simp⟩
  · have stands := directory_stands a
    rw [Archive.directory, spelled] at stands
    exact directory_signed stands
  · rw [List.mem_range, Archive.endPosition]
    omega

/- Where the end record has room for the numbers, the directory is sought, and otherwise it is where the
   wide end record says. -/
theorem wideHeaders?_end {a : Archive} (room : a.files.size + a.directory.size < capacity 8)
    (many : manyEntries ≤ a.entries.length ∨ elsewhere ≤ a.files.size) :
    wideHeaders? a.encode a.endPosition = headers? a.encode 0 a.files.size a.entries.length := by
  have filled : 46 * a.entries.length ≤ a.directory.size := length_le_directory 0 a.entries
  have wide : ¬ (a.entries.length < manyEntries ∧ a.files.size < elsewhere ∧
      a.directory.size < elsewhere) := by
    omega
  have stands := wideEnd_stands a
  have here : a.endPosition = a.files.size + a.directory.size + 76 := by
    rw [Archive.endPosition, Archive.wideEnd, wideEndFields, if_neg wide]
    rfl
  rw [Archive.wideEnd, wideEndFields, if_neg wide] at stands
  have reads := stands.reads
  simp only [Reads, Nat.add_assoc, Nat.reduceAdd, and_true] at reads
  obtain ⟨signature, -, -, -, -, -, count, -, -, files, locator, -, wideEnd, -⟩ := reads
  rw [Nat.mod_eq_of_lt (by omega)] at count files wideEnd
  have signed := hasSignature_of_number (by decide) signature
  have located := hasSignature_of_number (by decide) locator
  have locatorPlace : a.endPosition - 20 = a.files.size + (a.directory.size + 56) := by omega
  have wideEndPlace : a.endPosition - 12 = a.files.size + (a.directory.size + 64) := by omega
  have far : ¬ a.endPosition < 20 := by omega
  unfold wideHeaders?
  rw [locatorPlace, wideEndPlace]
  simp only [far, located, wideEnd, signed, count, files, Option.bind_eq_bind, Option.bind_some,
    Bool.not_true, Bool.false_eq_true, or_self, ↓reduceIte, Nat.add_assoc]

theorem directoryAt?_end {a : Archive} (names : ∀ e ∈ a.entries, e.name.utf8ByteSize < capacity 2)
    (room : a.files.size + a.directory.size < capacity 8) (short : a.comment.utf8ByteSize < capacity 2) :
    directoryAt? a.encode a.endPosition =
      some ⟨headersFrom 0 a.entries, ⟨(utf8 a.comment).toArray⟩⟩ := by
  have headers : headers? a.encode 0 a.files.size a.entries.length = some (headersFrom 0 a.entries) :=
    headers?_records names (by rw [Nat.zero_add]; exact Nat.lt_of_le_of_lt (Nat.le_add_right _ _) room)
      (directory_stands a)
  have comment := (ends_stand a).right.slice
  rw [ends_length, utf8_length] at comment
  have reads := (ends_stand a).left.reads
  simp only [Archive.ends, Archive.endFields, Reads, Nat.add_assoc, Nat.reduceAdd, and_true] at reads
  obtain ⟨signature, disk, startDisk, onDisk, count, -, position, commentSize⟩ := reads
  have counted : min a.entries.length manyEntries % capacity 2 = min a.entries.length manyEntries :=
    Nat.mod_eq_of_lt (Nat.lt_of_le_of_lt (Nat.min_le_right _ _) (by decide))
  rw [counted] at onDisk count
  rw [narrow_fits] at position
  rw [Nat.mod_eq_of_lt short] at commentSize
  have signed : hasSignature a.encode a.endPosition endSignature = true :=
    hasSignature_of_number (by decide) signature
  unfold directoryAt?
  simp only [signed, disk, startDisk, onDisk, count, position, commentSize, comment,
    Option.bind_eq_bind, Option.bind_some, Option.pure_def, Bool.not_true, Bool.false_eq_true,
    ↓reduceIte, ne_eq, not_true_eq_false]
  by_cases many : manyEntries ≤ a.entries.length ∨ elsewhere ≤ a.files.size
  · have marked : min a.entries.length manyEntries = manyEntries ∨ narrow a.files.size = elsewhere :=
      many.imp Nat.min_eq_right narrow_of_wide
    rw [if_pos marked, wideHeaders?_end room many, headers]
  have few : min a.entries.length manyEntries = a.entries.length := by omega
  have small : narrow a.files.size = a.files.size := narrow_of_not_wide fun wide => many (.inr wide)
  have unmarked : ¬ (a.entries.length = manyEntries ∨ a.files.size = elsewhere) := by omega
  rw [few, small, if_neg unmarked]
  by_cases none : a.entries.length = 0
  · have here : a.endPosition = a.files.size := by
      rw [Archive.endPosition, Archive.wideEnd, Archive.files, Archive.directory,
        List.eq_nil_of_length_eq_zero none]
      rfl
    rw [if_pos none, here, Nat.max_self, Nat.sub_self, headers]
    rfl
  · obtain ⟨past, search⟩ := directory_search none
    rw [if_neg none, if_neg past, search]
    simp [headers]

/-! ### The whole archive -/

theorem first_of_hasSignature (signed : hasSignature b i endSignature = true) : b[i]? = some 0x50 := by
  simp only [hasSignature, beq_iff_eq, numberAt?, Option.bind_eq_bind, Option.bind_eq_some_iff,
    Option.pure_def, Option.some.injEq] at signed
  obtain ⟨low, here, high, -, number⟩ := signed
  have first : low = 0x50 := by
    rw [← UInt8.toNat_inj]
    have bound := low.toNat_lt
    simp only [endSignature, UInt8.reduceToNat] at number ⊢
    omega
  rw [here, first]

theorem directoryAt?_inside {directory : Directory} (found : directoryAt? b i = some directory) :
    b[i]? = some 0x50 ∧ ∃ n, numberAt? b (i + 20) 2 = some n ∧ i + 22 + n ≤ b.size := by
  cases signed : hasSignature b i endSignature with
  | false => simp [directoryAt?, signed] at found
  | true =>
    simp only [directoryAt?, signed, Bool.not_true, Bool.false_eq_true, ↓reduceIte, Option.bind_eq_bind,
      Option.bind_eq_some_iff] at found
    obtain ⟨_, _, _, _, _, _, _, _, _, _, n, announced, _, sliced, _⟩ := found
    refine ⟨first_of_hasSignature signed, n, announced, ?_⟩
    unfold slice? at sliced
    split at sliced
    · assumption
    · cases sliced

theorem rest_lt_of_isSilent {before rest : List UInt8} {low high : UInt8}
    (silent : isSilent (before ++ low :: high :: rest) = true) :
    rest.length < low.toNat + 256 * high.toNat := by
  induction before with
  | nil =>
    simp only [List.nil_append, isSilent, Bool.and_eq_true, decide_eq_true_eq] at silent
    exact silent.1
  | cons x before ih =>
    refine ih ?_
    cases before with
    | nil =>
      simp only [List.cons_append, List.nil_append, isSilent, Bool.and_eq_true] at silent ⊢
      exact silent.2
    | cons y before =>
      simp only [List.cons_append, isSilent, Bool.and_eq_true] at silent ⊢
      exact silent.2

theorem split_two {l : List UInt8} {k : Nat} (long : k + 2 ≤ l.length) :
    ∃ before low high rest, l = before ++ low :: high :: rest ∧ before.length = k := by
  refine ⟨l.take k, l[k], l[k + 1], l.drop (k + 2), ?_, by simp; omega⟩
  rw [← List.drop_eq_getElem_cons, ← List.drop_eq_getElem_cons, List.take_append_drop]

/- Right behind the beginning of the end record there is no signature. Further on the length of a comment
   would have to be two bytes of the comment. -/
theorem directoryAt?_behind {a : Archive} (silent : isSilent (utf8 a.comment) = true) {j : Nat}
    (behind : a.endPosition < j) : directoryAt? a.encode j = none := by
  rw [Option.eq_none_iff_forall_ne_some]
  intro directory found
  obtain ⟨first, n, announced, inside⟩ := directoryAt?_inside found
  rw [encode_size] at inside
  have comment := (ends_stand a).right
  rw [ends_length] at comment
  obtain rfl | further : j = a.endPosition + 1 ∨ a.endPosition + 2 ≤ j := by omega
  · have second : a.encode[a.endPosition + 1]? = some 0x4b :=
      ((ends_stand a).right (l := [0x50])).head
    rw [second] at first
    cases first
  · obtain ⟨k, rfl⟩ := Nat.exists_eq_add_of_le further
    obtain ⟨before, low, high, rest, split, rfl⟩ :=
      split_two (l := utf8 a.comment) (k := k) (by rw [utf8_length]; omega)
    rw [split] at comment silent
    have short := rest_lt_of_isSilent silent
    have read : numberAt? a.encode (a.endPosition + 2 + before.length + 20) 2 =
        some (low.toNat + 256 * high.toNat) := by
      have one := comment.right.head
      have two := (comment.right.right (l := [low])).head
      rw [List.length_singleton] at two
      have here : a.endPosition + 2 + before.length + 20 = a.endPosition + 22 + before.length := by omega
      simp [numberAt?, here, one, two]
    obtain rfl := Option.some.inj (announced.symm.trans read)
    have size := congrArg List.length split
    simp only [utf8_length, List.length_append, List.length_cons] at size
    omega

theorem directoryBelow?_of {directory : Directory} {n p : Nat} (below : p < n)
    (quiet : ∀ j, p < j → directoryAt? b j = none)
    (found : directoryAt? b p = some directory) : directoryBelow? b n = some directory := by
  induction n with
  | zero => exact absurd below (Nat.not_lt_zero p)
  | succ n ih =>
    rw [directoryBelow?]
    rcases Nat.lt_succ_iff_lt_or_eq.mp below with before | rfl
    · rw [quiet n before, Option.none_or, ih before]
    · rw [found, Option.some_or]

/- The directory that is found is the one that was written, also where it repeats a name. -/
theorem directoryBelow?_encode {a : Archive} (names : ∀ e ∈ a.entries, e.name.utf8ByteSize < capacity 2)
    (room : a.files.size + a.directory.size < capacity 8) (short : a.comment.utf8ByteSize < capacity 2)
    (silent : isSilent (utf8 a.comment) = true) :
    directoryBelow? a.encode (a.encode.size - 21) =
      some ⟨headersFrom 0 a.entries, ⟨(utf8 a.comment).toArray⟩⟩ :=
  directoryBelow?_of (by rw [encode_size]; omega) (fun _ => directoryAt?_behind silent)
    (directoryAt?_end names room short)

theorem contents_encode {a : Archive} (names : ∀ e ∈ a.entries, e.name.utf8ByteSize < capacity 2)
    (room : a.files.size + a.directory.size < capacity 8) :
    (headersFrom 0 a.entries).map (fun h => (h.name, content a.encode h)) =
      a.entries.map fun e => (e.name, .ok e.bytes) :=
  contents_records names
    (by rw [Nat.zero_add]; exact Nat.lt_of_le_of_lt (Nat.le_add_right _ _) room) (files_stand a)

theorem Archive.Fits.readsBack {a : Archive} (fits : a.Fits) : a.ReadsBack := by
  have distinct : ((headersFrom 0 a.entries).map Header.name).Nodup := by
    rw [headersFrom_names]
    exact fits.distinct
  have found := directoryBelow?_encode fits.names fits.room fits.comment fits.silent
  rw [Archive.ReadsBack, listing?, directory?, found, Option.map_some, Option.map_some,
    Directory.indexed, foldl_indexHeader (l := []) (by simpa using distinct), List.nil_append,
    contents_encode fits.names fits.room]

end SignedManifest.Zip
