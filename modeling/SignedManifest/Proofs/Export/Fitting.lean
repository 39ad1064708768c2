import SignedManifest.Proofs.Export.Trees
import SignedManifest.Proofs.Zip.RoundTrip

/-!
The archives of exports fit into their format. Their names are made of names of files, which a disk keeps
short, and no two bytes of their comments announce a comment that would end where the archive does.
-/
namespace SignedManifest

/-! ### Names below a place -/

namespace Disk
variable {d d' : Disk} {T p q : Place} {s : String} {n : Node}

def ShortBelow (T : Place) (d : Disk) : Prop :=
  ∀ t, d.get? (T ++ t) ≠ none → ∀ s ∈ t, s.utf8ByteSize ≤ nameLimit

theorem ShortBelow.put (below : d.ShortBelow T) (isDir : d.isDirAt q = true)
    (short : s.utf8ByteSize ≤ nameLimit) : (d.put (q ++ [s]) n).ShortBelow T := by
  intro t stands r member
  rw [get?_put d (by simp)] at stands
  split at stands
  · rename_i here
    rcases List.eq_nil_or_concat' t with rfl | ⟨t, last, rfl⟩
    · cases member
    rw [← List.append_assoc] at here
    obtain ⟨rfl, same⟩ := List.append_inj' here rfl
    obtain rfl := (List.cons.inj same).1
    rcases List.mem_append.mp member with above | alone
    · exact below t (by rw [isDirAt_iff.mp isDir]; simp) r above
    · rwa [List.mem_singleton.mp alone]
  · exact below t stands r member

theorem ShortBelow.remove (below : d.ShortBelow T) (other : p ≠ []) : (d.remove p).ShortBelow T := by
  intro t stands
  rw [get?_remove d other] at stands
  split at stands
  · exact absurd rfl stands
  · exact below t stands

theorem shortBelow_preserved (T : Place) : Preserved (ShortBelow T) where
  make below made := by
    obtain ⟨dir, name, aims, _, rfl⟩ := makeDir_ok made
    exact below.put aims.isDir aims.short
  create below made := by
    obtain ⟨dir, name, aims, _, _, rfl⟩ := createFile_ok made
    exact below.put aims.isDir aims.short
  move {d _ _ _} below moved := by
    obtain ⟨old, held, dir, name, _, there, aims, _, _, rfl⟩ := renameFile_ok moved
    have gone : d.isDirAt old = false := by simp [isDirAt, there]
    exact (below.remove (ne_root gone)).put ((remove_keeps gone).dirs _ aims.isDir) aims.short

/-- No file is larger than the offsets in it can say. -/
def Addressable (d : Disk) : Prop := ∀ f ∈ d.filesBelow [], f.2.size < 1 <<< 63

instance (d : Disk) : Decidable d.Addressable := inferInstanceAs (Decidable (∀ _ ∈ _, _))

theorem Addressable.content {path : String} {bytes : ByteArray} (addressable : d.Addressable)
    (held : d.content path = .ok bytes) : bytes.size < Zip.capacity 8 := by
  obtain ⟨p, _, here⟩ := content_ok.mp held
  have filled : p ≠ [] := by
    rintro rfl
    cases here
  have bound := addressable (p, bytes) (mem_filesBelow.mpr ⟨filled, here⟩)
  exact Nat.lt_trans bound (by decide)

end Disk

/-! ### Comments that are no end records -/

namespace Zip
open Text

theorem isSilent_of_filled {l : List UInt8} (filled : ∀ x ∈ l, 0 < x.toNat) (short : l.length ≤ 258) :
    isSilent l = true := by
  induction l with
  | nil => rfl
  | cons low l ih =>
    cases l with
    | nil => rfl
    | cons high rest =>
      have one := filled low (by simp)
      have two := filled high (by simp)
      simp only [List.length_cons] at short ih
      have behind := ih (fun x member => filled x (List.mem_cons_of_mem _ member)) (by omega)
      rw [isSilent, behind, Bool.and_true, decide_eq_true_eq]
      omega

/- Bytes of text in front of such bytes announce lengths that are longer still. -/
theorem isSilent_append {front back : List UInt8} (text : ∀ x ∈ front, 0x20 ≤ x.toNat)
    (filled : ∀ x ∈ back, 0 < x.toNat) (short : back.length ≤ 258)
    (whole : front.length + back.length ≤ 0x2000) : isSilent (front ++ back) = true := by
  induction front with
  | nil => exact isSilent_of_filled filled short
  | cons low front ih =>
    have one := text low (by simp)
    have behind := ih (fun x member => text x (List.mem_cons_of_mem _ member))
      (by simp only [List.length_cons] at whole; omega)
    simp only [List.length_cons] at whole
    cases front with
    | nil =>
      cases back with
      | nil => rfl
      | cons high rest =>
        have two := filled high (by simp)
        simp only [List.length_cons] at short
        simp only [List.cons_append, List.nil_append] at behind ⊢
        rw [isSilent, behind, Bool.and_true, decide_eq_true_eq]
        omega
    | cons high front =>
      have two := text high (by simp)
      simp only [List.length_cons] at whole
      simp only [List.cons_append] at behind ⊢
      rw [isSilent, behind, Bool.and_true, decide_eq_true_eq, List.length_append]
      omega

theorem encodeChar_filled {c : Char} (other : c ≠ '\x00') :
    ∀ x ∈ String.utf8EncodeChar c, 0 < x.toNat := by
  have bound := c.valid
  have code : c.val.toNat ≠ 0 := fun none => other (Char.toNat_inj.mp none)
  simp only [UInt32.isValidChar, Nat.isValidChar] at bound
  unfold String.utf8EncodeChar
  dsimp only
  generalize c.val.toNat = n at *
  split_ifs <;> simp only [List.mem_cons, List.not_mem_nil, or_false, forall_eq_or_imp, forall_eq,
    UInt8.toNat_ofNat', Nat.reducePow] <;> omega

theorem utf8_filled {s : String} (clean : '\x00' ∉ s.toList) : ∀ x ∈ utf8 s, 0 < x.toNat := by
  intro x member
  rw [utf8_eq, List.mem_flatMap] at member
  obtain ⟨c, here, member⟩ := member
  exact encodeChar_filled (fun zero => clean (zero ▸ here)) x member

theorem comment_fits {text name : String} (printed : ∀ x ∈ utf8 text, 0x20 ≤ x.toNat)
    (brief : text.utf8ByteSize ≤ 32) (clean : '\x00' ∉ name.toList) (short : name.utf8ByteSize ≤ 255) :
    (text ++ name).utf8ByteSize < capacity 2 ∧ isSilent (utf8 (text ++ name)) = true := by
  have room : 32 + 255 < capacity 2 := by decide
  have both : utf8 (text ++ name) = utf8 text ++ utf8 name := by simp [utf8_eq]
  rw [both, String.utf8ByteSize_append]
  exact ⟨by omega, isSilent_append printed (utf8_filled clean) (by rw [utf8_length]; omega)
    (by rw [utf8_length, utf8_length]; omega)⟩

theorem Archive.room_of_size {a : Archive} (small : a.encode.size < capacity 8) :
    a.files.size + a.directory.size < capacity 8 := by
  rw [encode_size, Archive.endPosition] at small
  omega

theorem Archive.size_le_encode {a : Archive} {e : Entry} (member : e ∈ a.entries) :
    e.bytes.size ≤ a.encode.size := by
  have within : ∀ (es : List Entry) (offset : Nat), e ∈ es → e.bytes.size ≤ (records offset es).1.size := by
    intro es
    induction es with
    | nil => exact fun _ here => absurd here List.not_mem_nil
    | cons first es ih =>
      intro offset here
      rw [(records_cons offset first es).1, ByteArray.size_append, localRecord_size]
      rcases List.mem_cons.mp here with rfl | later
      · omega
      · have rest := ih (offset + first.localRecord.size) later
        rw [localRecord_size] at rest
        omega
  have files : e.bytes.size ≤ a.files.size := within a.entries 0 member
  rw [encode_size, Archive.endPosition]
  omega

end Zip

namespace Exporter
open SignedManifest.Path Disk

variable {x : Exporter} {consumer : Consumer} {scope : Scope} {now : Moment} {names : List String}
  {d d' opened filled : Disk} {path area : String} {A S : Place} {es : List Entitlement}
  {entries : List Zip.Entry} {signature : ByteArray}

theorem Finished.places_short (f : Finished x consumer scope now names d path d' area A S es opened filled
      entries signature) (grounded : d.Grounded) {file : Place × ByteArray}
    (member : file ∈ filled.filesBelow (A ++ [treeName])) :
    file.1.length ≤ 2 ∧ ∀ s ∈ file.1, s.utf8ByteSize ≤ nameLimit := by
  obtain ⟨t, bytes⟩ := file
  obtain ⟨_, held⟩ := mem_filesBelow.mp member
  have sound := x.plan_sound consumer es now scope
  have fits : (x.plan consumer es now scope).Fits IsTreePlace := plan_fits x consumer es now scope
  obtain ⟨tree, _⟩ := Plan.run_effects f.fresh.leads treeName_component sound f.ran
    (f.fresh.tree_empty grounded) (by simp)
  have place : IsTreePlace t := by
    have written := ((tree t bytes).mp held).mem
    rw [List.nil_append] at written
    exact fits.effects _ written
  have empty : opened.ShortBelow A := by
    intro u stands s member
    exact absurd (f.fresh.empty grounded u (List.ne_nil_of_mem member)) stands
  have short := Plan.run_preserved (shortBelow_preserved A) empty f.ran (treeName :: t)
    (by rw [List.append_assoc, List.singleton_append] at held; rw [held]; simp)
  refine ⟨?_, fun s member => short s (List.mem_cons_of_mem _ member)⟩
  cases place <;> simp

theorem entryName_short {area : String} {naming : EntryNaming} {t : Place} (shallow : t.length ≤ 2)
    (short : ∀ s ∈ t, s.utf8ByteSize ≤ nameLimit) :
    (entryName naming (join area treeName) t).utf8ByteSize < Zip.capacity 2 := by
  have room : 6 + 2 * (1 + nameLimit) < Zip.capacity 2 := by decide
  cases naming with
  | flat =>
    rcases List.eq_nil_or_concat' t with rfl | ⟨above, last, rfl⟩
    · simp [entryName, Zip.capacity]
    · have bound := short last (by simp)
      simp only [entryName, List.getLast?_concat, Option.getD_some]
      omega
  | relative =>
    have base : treeName.utf8ByteSize = 6 := by decide
    have slash : "/".utf8ByteSize = 1 := by decide
    simp only [entryName, fileName?_join area treeName_component, Option.toList_some,
      List.singleton_append]
    rcases t with _ | ⟨a, _ | ⟨b, _ | ⟨c, rest⟩⟩⟩
    · rw [String.intercalate_singleton]
      omega
    · have first := short a (by simp)
      simp only [String.intercalate_cons_cons, String.intercalate_singleton, String.utf8ByteSize_append,
        base, slash]
      omega
    · have first := short a (by simp)
      have second := short b (by simp)
      simp only [String.intercalate_cons_cons, String.intercalate_singleton, String.utf8ByteSize_append,
        base, slash]
      omega
    · simp only [List.length_cons] at shallow
      omega

theorem Finished.names_short (f : Finished x consumer scope now names d path d' area A S es opened filled
      entries signature) (grounded : d.Grounded) :
    ∀ e ∈ entries, e.name.utf8ByteSize < Zip.capacity 2 := by
  intro e member
  rw [f.entries_filled.1] at member
  obtain ⟨file, inTree, rfl⟩ := List.mem_map.mp member
  obtain ⟨shallow, short⟩ := f.places_short grounded inTree
  exact entryName_short shallow short

/- A consumer's id is part of the name of a file, so it is as short and as clean as one. -/
theorem Completed.uuid_short (c : Completed x consumer scope now names d path d' area A es opened filled
      entries signature) (single : '/' ∉ consumer.uuid.toList) :
    consumer.uuid.utf8ByteSize ≤ nameLimit ∧ '\x00' ∉ consumer.uuid.toList := by
  obtain ⟨dir, name, _, aims⟩ := c.packed.aims
  have component := signedFileName_component single (join area treeName)
  obtain ⟨_, rfl⟩ := aims_join component aims
  have short := aims.short
  rw [signedFileName, String.utf8ByteSize_append, String.utf8ByteSize_append,
    String.utf8ByteSize_append] at short
  refine ⟨by omega, fun zero => ?_⟩
  have inside : '\x00' ∈ (join area (signedFileName consumer.uuid (join area treeName))).toList := by
    rw [join, if_neg (by simp [isAbsolute_component component])]
    split <;> simp [signedFileName, zero]
  have allowed := aims.allowed
  rw [checkPath, if_pos (by simpa using inside)] at allowed
  cases allowed

theorem size_le_signed (uuid : String) (inner signature : ByteArray) :
    inner.size ≤ (signedArchive uuid inner signature).encode.size :=
  Zip.Archive.size_le_encode (e := ⟨innerName, inner⟩) List.mem_cons_self

/- Both archives fit if the signed one, which holds the other, is no larger than files can be. -/
theorem Completed.fits (c : Completed x consumer scope now names d path d' area A es opened filled
      entries signature) (single : '/' ∉ consumer.uuid.toList) (grounded : d.Grounded)
    (small : (signedArchive consumer.uuid (innerArchive consumer.uuid entries).encode
      signature).encode.size < Zip.capacity 8) :
    (innerArchive consumer.uuid entries).Fits ∧
      (signedArchive consumer.uuid (innerArchive consumer.uuid entries).encode signature).Fits := by
  obtain ⟨short, clean⟩ := Completed.uuid_short c single
  have innerComment_fits : (innerComment consumer.uuid).utf8ByteSize < Zip.capacity 2 ∧
      Zip.isSilent (Text.utf8 (innerComment consumer.uuid)) = true :=
    Zip.comment_fits (by decide +kernel) (by decide +kernel) clean short
  have signedComment_fits : (signedComment consumer.uuid).utf8ByteSize < Zip.capacity 2 ∧
      Zip.isSilent (Text.utf8 (signedComment consumer.uuid)) = true :=
    Zip.comment_fits (by decide +kernel) (by decide +kernel) clean short
  have names : innerName.utf8ByteSize < Zip.capacity 2 ∧ signatureName.utf8ByteSize < Zip.capacity 2 := by
    decide
  have inner := Nat.lt_of_le_of_lt (size_le_signed consumer.uuid _ signature) small
  constructor
  · exact
      { names := c.names_short grounded
        distinct := c.entries_filled.2
        room := Zip.Archive.room_of_size inner
        comment := innerComment_fits.1
        silent := innerComment_fits.2 }
  · exact
      { names := List.forall_mem_cons.mpr ⟨names.1, List.forall_mem_singleton.mpr names.2⟩
        distinct := show [innerName, signatureName].Nodup by decide
        room := Zip.Archive.room_of_size small
        comment := signedComment_fits.1
        silent := signedComment_fits.2 }

end Exporter

end SignedManifest
