import SignedManifest.Proofs.Archive.Indexing

/-!
What a check answers. The first defect decides, in this order: a name that does not belong, no inner
archive, no signature, a signature that is refused, an inner archive that cannot be opened. Up to the
signature the inner archive is bytes and nothing else. All of this is so with every reader of archives.
-/
namespace SignedManifest.Verification
open Zip

variable {reader : Reader} {verifier : Verifier} {path name : String} {archive : ByteArray} {index : Index}
  {d : Disk} {r : Except VerifyError VerifiedManifest}

def Known (names : List String) : Prop := ∀ n ∈ names, n = innerName ∨ n = signatureName

def Holds (index : Index) (name : String) (bytes : ByteArray) : Prop :=
  index.content? name = some (.ok bytes)

/-- The answer to an archive with such an index, one case for each defect that may come first and one
for an archive that has none. -/
inductive Verdict (reader : Reader) (verifier : Verifier) (index : Index) :
    Except VerifyError VerifiedManifest → Prop where
  | unexpected {before after : List String} {name : String}
      (names : index.names = before ++ name :: after) (known : Known before)
      (notInner : name ≠ innerName) (notSignature : name ≠ signatureName) :
      Verdict reader verifier index (.error (.unexpectedEntry name))
  | noInner (known : Known index.names) (absent : innerName ∉ index.names) :
      Verdict reader verifier index (.error (.missingEntry innerName))
  | noSignature (known : Known index.names) (present : innerName ∈ index.names)
      (absent : signatureName ∉ index.names) :
      Verdict reader verifier index (.error (.missingEntry signatureName))
  | refused {inner signature : ByteArray} (known : Known index.names)
      (holds : Holds index innerName inner) (signed : Holds index signatureName signature)
      (rejects : verifier inner signature = false) :
      Verdict reader verifier index (.error .signatureInvalid)
  | unreadable {inner signature : ByteArray} (known : Known index.names)
      (holds : Holds index innerName inner) (signed : Holds index signatureName signature)
      (accepts : verifier inner signature = true) (noArchive : reader inner = none) :
      Verdict reader verifier index (.error .noArchive)
  | accepted {inner signature : ByteArray} {inside : Index} (known : Known index.names)
      (holds : Holds index innerName inner) (signed : Holds index signatureName signature)
      (accepts : verifier inner signature = true) (opens : reader inner = some inside) :
      Verdict reader verifier index (.ok ⟨inner, inside.names, Sha256.fingerprint inner⟩)

/-! ### The stages of a check -/

theorem unexpected_some_iff {names : List String} :
    names.find? (!isExpected ·) = some name ↔ ∃ before after, names = before ++ name :: after ∧
      Known before ∧ name ≠ innerName ∧ name ≠ signatureName := by
  have known (l : List String) : (∀ n ∈ l, (!!isExpected n) = true) ↔ Known l := by
    simp [Known, isExpected_iff]
  have stranger : (!isExpected name) = true ↔ name ≠ innerName ∧ name ≠ signatureName := by
    simp [← Bool.not_eq_true, isExpected_iff]
  rw [List.find?_eq_some_iff_append, stranger]
  simp only [known]
  grind

theorem readEntry_missing (absent : name ∉ index.names) :
    readEntry path index name = .error (.missingEntry name) := by
  have none : index.content? name = none := by
    rw [← Option.not_isSome_iff_eq_none, index.listed]
    exact absent
  rw [readEntry, none]

theorem acceptInner_unreadable {inner : ByteArray} (noArchive : reader inner = none) :
    acceptInner reader inner = .error .noArchive := by
  unfold acceptInner
  rw [noArchive]

theorem verifyArchive_stranger (opens : reader archive = some index)
    (found : index.names.find? (!isExpected ·) = some name) :
    verifyArchive reader verifier path archive = .error (.unexpectedEntry name) := by
  unfold verifyArchive
  rw [opens]
  dsimp only
  rw [found]
  rfl

/-! ### The verdict -/

theorem Verdict.answer (opens : reader archive = some index)
    (readable : ∀ name ∈ index.names, ∃ bytes, Holds index name bytes)
    (verdict : Verdict reader verifier index r) : verifyArchive reader verifier path archive = r := by
  cases verdict with
  | unexpected names known notInner notSignature =>
    exact verifyArchive_stranger opens
      (unexpected_some_iff.mpr ⟨_, _, names, known, notInner, notSignature⟩)
  | noInner known absent =>
    rw [verifyArchive_known opens (unexpected_none_iff.mpr known), readEntry_missing absent]
    rfl
  | noSignature known present absent =>
    obtain ⟨inner, holds⟩ := readable innerName present
    rw [verifyArchive_known opens (unexpected_none_iff.mpr known), readEntry_read holds,
      readEntry_missing absent]
    rfl
  | refused known holds signed rejects =>
    rw [verifyArchive_read opens (unexpected_none_iff.mpr known) holds signed, rejects]
    rfl
  | unreadable known holds signed accepts noArchive =>
    rw [verifyArchive_read opens (unexpected_none_iff.mpr known) holds signed, if_pos accepts,
      acceptInner_unreadable noArchive]
  | accepted known holds signed accepts inside =>
    rw [verifyArchive_read opens (unexpected_none_iff.mpr known) holds signed, if_pos accepts,
      acceptInner_opens inside]

theorem exists_verdict (readable : ∀ name ∈ index.names, ∃ bytes, Holds index name bytes) :
    ∃ r, Verdict reader verifier index r := by
  cases stranger : index.names.find? (!isExpected ·) with
  | some name =>
    obtain ⟨before, after, names, known, notInner, notSignature⟩ := unexpected_some_iff.mp stranger
    exact ⟨_, .unexpected names known notInner notSignature⟩
  | none =>
    have known : Known index.names := unexpected_none_iff.mp stranger
    by_cases present : innerName ∈ index.names
    swap
    · exact ⟨_, .noInner known present⟩
    by_cases present' : signatureName ∈ index.names
    swap
    · exact ⟨_, .noSignature known present present'⟩
    obtain ⟨inner, holds⟩ := readable innerName present
    obtain ⟨signature, signed⟩ := readable signatureName present'
    cases decision : verifier inner signature with
    | false => exact ⟨_, .refused known holds signed decision⟩
    | true =>
      cases opening : reader inner with
      | none => exact ⟨_, .unreadable known holds signed decision opening⟩
      | some inside => exact ⟨_, .accepted known holds signed decision opening⟩

/- What a check answers is the one verdict on the archive. -/
theorem first_defect_decides (held : d.content path = .ok archive) (opens : reader archive = some index)
    (readable : ∀ name ∈ index.names, ∃ bytes, Holds index name bytes) :
    verifyManifestBy reader verifier path d = r ↔ Verdict reader verifier index r := by
  have checked : verifyManifestBy reader verifier path d = verifyArchive reader verifier path archive := by
    rw [verifyManifestBy, held]
  rw [checked]
  refine ⟨fun answer => ?_, fun verdict => verdict.answer opens readable⟩
  obtain ⟨r', verdict⟩ : ∃ r, Verdict reader verifier index r := exists_verdict readable
  obtain rfl : r' = r := (verdict.answer opens readable).symm.trans answer
  exact verdict

/-! ### Samples -/

theorem index_of_fits {a : Zip.Archive} (fits : a.Fits) :
    ∃ index, Zip.reader a.encode = some index ∧ index.names = a.entries.map Entry.name ∧
      (∀ name ∈ index.names, ∃ bytes, Holds index name bytes) ∧
      ∀ e ∈ a.entries, Holds index e.name e.bytes := by
  obtain ⟨index, opens, names, reads⟩ := reader_of_listing fits.readsBack
  rw [List.map_map] at names
  have holds : ∀ e ∈ a.entries, Holds index e.name e.bytes := fun e member =>
    reads (e.name, .ok e.bytes) (List.mem_map_of_mem member)
  refine ⟨index, opens, names, fun name listed => ?_, holds⟩
  obtain ⟨e, member, rfl⟩ := List.mem_map.mp (names ▸ listed)
  exact ⟨e.bytes, holds e member⟩

def strayArchive : Zip.Archive := ⟨"", [⟨"README", ⟨#[104]⟩⟩, ⟨innerName, ⟨#[1]⟩⟩]⟩

def hollowArchive : Zip.Archive := ⟨"", [⟨signatureName, ⟨#[2]⟩⟩, ⟨innerName, ⟨#[1]⟩⟩]⟩

def defectsDisk : Disk :=
  (({ : Disk }).put ["stray.zip"] (.file strayArchive.encode)).put ["hollow.zip"]
    (.file hollowArchive.encode)

/- Of three defects the stranger is named. What is no archive goes unnoticed until its signature is
   accepted. -/
theorem first_defect_decides_stray :
    verifyManifest (fun _ _ => true) "/stray.zip" defectsDisk = .error (.unexpectedEntry "README") ∧
    verifyManifest (fun _ _ => false) "/hollow.zip" defectsDisk = .error .signatureInvalid ∧
    verifyManifest (fun _ _ => true) "/hollow.zip" defectsDisk = .error .noArchive := by
  have stray : strayArchive.Fits := Archive.fits_of_checks (by decide +kernel)
  have hollow : hollowArchive.Fits := Archive.fits_of_checks (by decide +kernel)
  obtain ⟨index, opens, names, readable, _⟩ := index_of_fits stray
  obtain ⟨index', opens', names', readable', holds'⟩ := index_of_fits hollow
  have known : Known index'.names := by
    rw [names']
    simp [Known, hollowArchive]
  have inner : Holds index' innerName ⟨#[1]⟩ := holds' ⟨innerName, ⟨#[1]⟩⟩ (by simp [hollowArchive])
  have signature : Holds index' signatureName ⟨#[2]⟩ :=
    holds' ⟨signatureName, ⟨#[2]⟩⟩ (by simp [hollowArchive])
  refine ⟨?_, ?_, ?_⟩
  · have first : index.names = [] ++ "README" :: [innerName] := names
    exact (first_defect_decides rfl opens readable).mpr
      (.unexpected first (by simp [Known]) (by decide) (by decide))
  · exact (first_defect_decides rfl opens' readable').mpr (.refused known inner signature rfl)
  · exact (first_defect_decides rfl opens' readable').mpr
      (.unreadable known inner signature rfl (by decide +kernel))

end SignedManifest.Verification
