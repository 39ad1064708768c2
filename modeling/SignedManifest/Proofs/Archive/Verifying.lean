import SignedManifest.Archive.Verification
import SignedManifest.Proofs.Zip.RoundTrip

/-!
Verifying archives that read back. A signed archive of the two entries that packing writes is
accepted or refused by the verifier alone.
-/
namespace SignedManifest.Verification
open Zip

variable {reader : Reader} {archive inner signature bytes : ByteArray} {verifier : Verifier}
  {path name : String} {index : Index}

theorem acceptInner_opens (opens : reader inner = some index) :
    acceptInner reader inner = .ok ⟨inner, index.names, Sha256.fingerprint inner⟩ := by
  unfold acceptInner
  rw [opens]

theorem readEntry_read (read : index.content? name = some (.ok bytes)) :
    readEntry path index name = .ok bytes := by
  unfold readEntry
  rw [read]

theorem verifyArchive_known (opens : reader archive = some index)
    (known : index.names.find? (!isExpected ·) = none) :
    verifyArchive reader verifier path archive = (do
      let inner ← readEntry path index innerName
      let signature ← readEntry path index signatureName
      if verifier inner signature then acceptInner reader inner else throw .signatureInvalid) := by
  unfold verifyArchive
  rw [opens]
  dsimp only
  rw [known]

theorem verifyArchive_read (opens : reader archive = some index)
    (known : index.names.find? (!isExpected ·) = none)
    (innerRead : index.content? innerName = some (.ok inner))
    (signatureRead : index.content? signatureName = some (.ok signature)) :
    verifyArchive reader verifier path archive =
      if verifier inner signature then acceptInner reader inner else .error .signatureInvalid := by
  rw [verifyArchive_known opens known, readEntry_read innerRead, readEntry_read signatureRead]
  rfl

/-! ### Archives that read back -/

theorem find?_of_mem {l : List Header} {h : Header} (distinct : (l.map Header.name).Nodup) (here : h ∈ l) :
    l.find? (·.name == h.name) = some h := by
  obtain ⟨before, after, rfl⟩ := List.append_of_mem here
  rw [List.map_append, List.map_cons] at distinct
  have apart := (List.nodup_append.mp distinct).2.2
  rw [List.find?_eq_some_iff_append]
  refine ⟨by simp, before, after, rfl, fun g earlier => ?_⟩
  simpa using apart g.name (List.mem_map_of_mem earlier) h.name (by simp)

theorem reader_of_listing {entries : List (String × Except ContentFault ByteArray)}
    (read : listing? archive = some entries) :
    ∃ index, Zip.reader archive = some index ∧ index.names = entries.map Prod.fst ∧
      ∀ e ∈ entries, index.content? e.1 = some e.2 := by
  obtain ⟨indexed, found, rfl⟩ := Option.map_eq_some_iff.mp read
  obtain ⟨directory, opens, rfl⟩ := Option.map_eq_some_iff.mp found
  refine ⟨directory.index archive, by rw [Zip.reader, opens, Option.map_some], ?_, fun e member => ?_⟩
  · rw [List.map_map]
    rfl
  · obtain ⟨h, here, rfl⟩ := List.mem_map.mp member
    exact congrArg (Option.map (content archive)) (find?_of_mem directory.indexed_nodup here)

theorem acceptInner_of_listing {entries : List (String × Except ContentFault ByteArray)}
    (read : listing? inner = some entries) :
    acceptInner Zip.reader inner = .ok ⟨inner, entries.map Prod.fst, Sha256.fingerprint inner⟩ := by
  obtain ⟨index, opens, names, _⟩ := reader_of_listing read
  rw [acceptInner_opens opens, names]

theorem verifyArchive_of_listing (path : String)
    (read : listing? archive =
      some [(innerName, .ok inner), (signatureName, .ok signature)]) :
    verifyArchive Zip.reader verifier path archive =
      if verifier inner signature then acceptInner Zip.reader inner else .error .signatureInvalid := by
  obtain ⟨index, opens, names, reads⟩ := reader_of_listing read
  have known : index.names.find? (!isExpected ·) = none := by
    rw [names]
    simp [isExpected]
  exact verifyArchive_read opens known (reads (innerName, .ok inner) (by simp))
    (reads (signatureName, .ok signature) (by simp))

end SignedManifest.Verification
