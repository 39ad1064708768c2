import SignedManifest.Proofs.Archive.Packing
import SignedManifest.Proofs.Disk.Succeeding

/-!
Packing that fails. The inner archive is packed and signed before the signed one is begun, and with a
short id nothing can fail after that, so a failure makes no file under the signed archive's path.
-/
namespace SignedManifest
open SignedManifest.Path Disk

variable {uuid workDir exportDir : String} {naming : EntryNaming} {signer : Signer} {d d' : Disk}
  {e : ExportError}

/-- Ids of at most this many bytes leave room in the comment of the signed archive. -/
def uuidLimit : Nat := 65511

theorem encodeArchive_of_short {a : Zip.Archive} (short : a.comment.utf8ByteSize ≤ Zip.commentLimit) :
    encodeArchive a = .ok a.encode := by
  rw [encodeArchive, if_pos short]

theorem innerComment_short (short : uuid.utf8ByteSize ≤ uuidLimit) :
    (innerComment uuid).utf8ByteSize ≤ Zip.commentLimit := by
  have size : "tally export for ".utf8ByteSize = 17 := by decide
  calc (innerComment uuid).utf8ByteSize = "tally export for ".utf8ByteSize + uuid.utf8ByteSize :=
        String.utf8ByteSize_append ..
    _ = 17 + uuid.utf8ByteSize := congrArg (· + uuid.utf8ByteSize) size
    _ ≤ 17 + uuidLimit := Nat.add_le_add_left short 17
    _ ≤ Zip.commentLimit := by decide

theorem signedComment_short (short : uuid.utf8ByteSize ≤ uuidLimit) :
    (signedComment uuid).utf8ByteSize ≤ Zip.commentLimit := by
  have size : "signed tally export for ".utf8ByteSize = 24 := by decide
  calc (signedComment uuid).utf8ByteSize = "signed tally export for ".utf8ByteSize + uuid.utf8ByteSize :=
        String.utf8ByteSize_append ..
    _ = 24 + uuid.utf8ByteSize := congrArg (· + uuid.utf8ByteSize) size
    _ ≤ 24 + uuidLimit := Nat.add_le_add_left short 24
    _ ≤ Zip.commentLimit := by decide

theorem fillFile_error {path : String} {content : Disk → Except ExportError ByteArray}
    (failed : fillFile d path content = (.error e, d')) :
    (∃ cause, d.createFile path ByteArray.empty = .error cause ∧ e = .io path cause ∧ d' = d) ∨
      d.createFile path ByteArray.empty = .ok d' ∧ content d' = .error e := by
  unfold fillFile at failed
  split at failed
  · rename_i cause stuck
    cases failed
    exact .inl ⟨cause, stuck, rfl, rfl⟩
  rename_i opened create
  split at failed
  · rename_i stuck
    cases failed
    exact .inr ⟨create, stuck⟩
  rename_i bytes gathered
  obtain ⟨written, again⟩ := createFile_again create bytes
  rw [again] at failed
  cases failed

theorem fillFile_ok {path : String} {content : Disk → Except ExportError ByteArray}
    {bytes : ByteArray} (filled : fillFile d path content = (.ok bytes, d')) :
    ∃ opened, d.createFile path ByteArray.empty = .ok opened ∧ content opened = .ok bytes ∧
      opened.createFile path bytes = .ok d' := by
  unfold fillFile at filled
  split at filled
  · cases filled
  rename_i opened create
  split at filled
  · cases filled
  rename_i gathered
  split at filled
  · cases filled
  rename_i written
  cases filled
  exact ⟨opened, create, gathered, written⟩

/-- How packing fails, and on what disk: the inner archive cannot be made, its entries cannot be
gathered, its bytes are not signed, or the signed archive cannot be made. -/
inductive Refused (d : Disk) (uuid workDir exportDir : String) (naming : EntryNaming)
    (signer : Signer) : ExportError → Disk → Prop where
  | inner {cause : IoError}
      (stuck : d.createFile (join workDir innerName) ByteArray.empty = .error cause) :
      Refused d uuid workDir exportDir naming signer (.io (join workDir innerName) cause) d
  | entries {opened : Disk} {e : ExportError}
      (opens : d.createFile (join workDir innerName) ByteArray.empty = .ok opened)
      (stuck : innerEntries opened exportDir naming = .error e) :
      Refused d uuid workDir exportDir naming signer e opened
  | signature {opened written : Disk} {entries : List Zip.Entry} {e : ExportError}
      (opens : d.createFile (join workDir innerName) ByteArray.empty = .ok opened)
      (listed : innerEntries opened exportDir naming = .ok entries)
      (filled : opened.createFile (join workDir innerName) (innerArchive uuid entries).encode =
        .ok written)
      (refused : signer (innerArchive uuid entries).encode = .error e) :
      Refused d uuid workDir exportDir naming signer e written
  | outer {opened written : Disk} {entries : List Zip.Entry} {signature : ByteArray}
      {cause : IoError}
      (opens : d.createFile (join workDir innerName) ByteArray.empty = .ok opened)
      (listed : innerEntries opened exportDir naming = .ok entries)
      (filled : opened.createFile (join workDir innerName) (innerArchive uuid entries).encode =
        .ok written)
      (signed : signer (innerArchive uuid entries).encode = .ok signature)
      (stuck : written.createFile (join workDir (signedFileName uuid exportDir)) ByteArray.empty =
        .error cause) :
      Refused d uuid workDir exportDir naming signer
        (.io (join workDir (signedFileName uuid exportDir)) cause) written

theorem package_error (short : uuid.utf8ByteSize ≤ uuidLimit)
    (failed : package uuid workDir exportDir naming signer d = (.error e, d')) :
    Refused d uuid workDir exportDir naming signer e d' := by
  have fits (entries : List Zip.Entry) :
      encodeArchive ⟨innerComment uuid, entries⟩ = .ok (innerArchive uuid entries).encode :=
    encodeArchive_of_short (innerComment_short short)
  simp only [package] at failed
  split at failed
  · rename_i filled
    cases failed
    obtain ⟨cause, stuck, rfl, rfl⟩ | ⟨opens, stuck⟩ := fillFile_error filled
    · exact .inner stuck
    · cases listed : innerEntries d' exportDir naming with
      | error e' =>
        obtain rfl : e' = e := by simpa [listed, bind, Except.bind] using stuck
        exact .entries opens listed
      | ok entries => simp [listed, bind, Except.bind, fits] at stuck
  rename_i inner mid filled
  obtain ⟨opened, opens, gathered, written⟩ := fillFile_ok filled
  simp only [bind_ok] at gathered
  obtain ⟨entries, listed, encoded⟩ := gathered
  obtain rfl : (innerArchive uuid entries).encode = inner := by simpa [fits] using encoded
  split at failed
  · rename_i refused
    cases failed
    exact .signature opens listed written refused
  rename_i signature signed
  split at failed
  · rename_i outer
    cases failed
    obtain ⟨cause, stuck, rfl, rfl⟩ | ⟨_, stuck⟩ := fillFile_error outer
    · exact .outer opens listed written signed stuck
    · rw [encodeArchive_of_short (signedComment_short short)] at stuck
      cases stuck
  · cases failed

namespace Refused

theorem changes (refused : Refused d uuid workDir exportDir naming signer e d') :
    d.Keeps d' ∧ ∀ p, d'.get? p = d.get? p ∨ ∃ W, p = W ++ [innerName] := by
  have writes {d d' : Disk} {bytes : ByteArray}
      (made : d.createFile (join workDir innerName) bytes = .ok d') :
      d.Keeps d' ∧ ∀ p, d'.get? p = d.get? p ∨ ∃ W, p = W ++ [innerName] := by
    have keeps := createFile_keeps made
    obtain ⟨W, name, aims, _, _, rfl⟩ := createFile_ok made
    obtain ⟨_, rfl⟩ := aims_join innerName_component aims
    refine ⟨keeps, fun p => ?_⟩
    rw [get?_put d (by simp)]
    split
    · rename_i here
      exact .inr ⟨W, here⟩
    · exact .inl rfl
  have twice {opened written : Disk} {bytes : ByteArray}
      (opens : d.createFile (join workDir innerName) ByteArray.empty = .ok opened)
      (filled : opened.createFile (join workDir innerName) bytes = .ok written) :
      d.Keeps written ∧ ∀ p, written.get? p = d.get? p ∨ ∃ W, p = W ++ [innerName] := by
    obtain ⟨keeps, first⟩ := writes opens
    obtain ⟨keeps', second⟩ := writes filled
    refine ⟨keeps.trans keeps', fun p => ?_⟩
    rcases second p with same | here
    · rw [same]
      exact first p
    · exact .inr here
  cases refused with
  | inner _ => exact ⟨.refl d, fun _ => .inl rfl⟩
  | entries opens _ => exact writes opens
  | signature opens _ filled _ => exact twice opens filled
  | outer opens _ filled _ _ => exact twice opens filled

theorem kept {S : Place} (refused : Refused d uuid workDir exportDir naming signer e d')
    (found : d'.locate (join workDir (signedFileName uuid exportDir)) = .ok S) :
    d'.get? S = d.get? S ∧ ∃ above s, S = above ++ [s ++ signedEnding exportDir] := by
  obtain ⟨before, s, steps, c⟩ := signed_steps workDir uuid exportDir
  simp only [Disk.locate, steps, Bool.false_eq_true, ↓reduceIte, bind_ok] at found
  obtain ⟨_, _, went⟩ := found
  obtain ⟨above, _, down⟩ := walk_append_ok.mp went
  obtain rfl := walk_components (by simpa using c) down
  refine ⟨(refused.changes.2 _).resolve_right ?_, above, s, rfl⟩
  rintro ⟨W, same⟩
  obtain ⟨_, last⟩ := List.append_inj' same rfl
  exact signed_step_ne (congrArg Prod.fst steps) (by simpa using last)

end Refused

end SignedManifest
