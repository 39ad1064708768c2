import SignedManifest.Proofs.Archive.Verifying
import SignedManifest.Proofs.Export.Completed

/-!
Exports that succeed are accepted by whoever accepts their signer's signatures, and by nobody who
refuses the signature that they carry.
-/
namespace SignedManifest.Exporter
open SignedManifest.Path Disk Verification

variable {x : Exporter} {consumer : Consumer} {scope : Scope} {now : Moment} {names : List String}
  {d d' : Disk} {path : String}

theorem export_verifies (single : '/' ∉ consumer.uuid.toList)
    (ran : x.run consumer scope now names d = (.ok path, d')) :
    ∃ (area : String) (tree : Place) (inner signed : Zip.Archive) (signature : ByteArray),
      (openArea d x.settings.workDir names).1 = .ok area ∧
      d'.locate (join area treeName) = .ok tree ∧
      inner = ⟨innerComment consumer.uuid, (d'.filesBelow tree).map fun f =>
        ⟨entryName x.settings.entryNaming (join area treeName) f.1, f.2⟩⟩ ∧
      signed = ⟨signedComment consumer.uuid,
        [⟨innerName, inner.encode⟩, ⟨signatureName, signature⟩]⟩ ∧
      (inner.entries.map Zip.Entry.name).Nodup ∧
      d'.content (join area innerName) = .ok inner.encode ∧
      x.signer inner.encode = .ok signature ∧
      d'.content path = .ok signed.encode ∧
      (inner.ReadsBack → signed.ReadsBack → ∀ v : Verifier,
        (∀ data given, x.signer data = .ok given → v data given = true) →
        verifyManifest v path d' = .ok ⟨inner.encode, inner.entries.map Zip.Entry.name,
          "sha256:" ++ Text.hexOfBytes (Sha256.digest inner.encode)⟩) ∧
      (signed.ReadsBack → ∀ v : Verifier, v inner.encode signature = false →
        verifyManifest v path d' = .error .signatureInvalid) := by
  obtain ⟨area, A, es, opened, filled, entries, signature, c⟩ := run_completed single ran
  obtain ⟨located, listed, distinct⟩ := c.entries_eq
  have outer := c.packed.outer_content
  rw [← c.answer] at outer
  have verified : (signedArchive consumer.uuid (innerArchive consumer.uuid entries).encode
      signature).ReadsBack → ∀ v : Verifier, verifyManifest v path d' =
        if v (innerArchive consumer.uuid entries).encode signature then
          acceptInner Zip.reader (innerArchive consumer.uuid entries).encode
        else .error .signatureInvalid := fun back v => by
    unfold verifyManifest verifyManifestBy
    rw [outer]
    exact verifyArchive_of_listing path back
  refine ⟨area, A ++ [treeName], innerArchive consumer.uuid entries,
    signedArchive consumer.uuid (innerArchive consumer.uuid entries).encode signature, signature,
    by rw [c.opens], located, congrArg _ listed, rfl, distinct, c.packed.inner_content,
    c.packed.signed, outer, fun innerBack signedBack v accepts => ?_,
    fun signedBack v refuses => ?_⟩
  · rw [verified signedBack, if_pos (accepts _ _ c.packed.signed), acceptInner_of_listing innerBack,
      List.map_map]
    rfl
  · rw [verified signedBack, if_neg (by simp [refuses])]

/-! ### A small export, verified -/

def sampleMeta : String :=
  "\x7b\"cdnLabel\":null,\"created\":\"2024-01-01T00:00:00Z\",\"principalName\":\"admin\"," ++
    "\"version\":\"0.4.0-1\",\"webAppPrefix\":null\x7d"

def sampleFiles : List (Place × ByteArray) :=
  [(["entitlement_certificates", "7.pem"], "CERT\nKEY\n".toUTF8), (["meta.json"], sampleMeta.toUTF8)]

theorem sample_files : ∃ d', sampleExporter.run sampleConsumer (.certificates none) sampleMoment ["a"]
      sampleDisk = (.ok "/w/a/c1-export.zip", d') ∧
    (d'.locate "/w/a/export").toOption = some ["w", "a", "export"] ∧
    d'.filesBelow ["w", "a", "export"] = sampleFiles := by
  obtain ⟨answer, located, files⟩ :
      (sampleExporter.run sampleConsumer (.certificates none) sampleMoment ["a"]
        sampleDisk).1.toOption = some "/w/a/c1-export.zip" ∧
      ((sampleExporter.run sampleConsumer (.certificates none) sampleMoment ["a"]
        sampleDisk).2.locate "/w/a/export").toOption = some ["w", "a", "export"] ∧
      (sampleExporter.run sampleConsumer (.certificates none) sampleMoment ["a"]
        sampleDisk).2.filesBelow ["w", "a", "export"] = sampleFiles := by
    decide +kernel
  obtain ⟨d', ran⟩ := answered answer
  rw [ran] at located files
  exact ⟨d', ran, located, files⟩

def sampleArchive : Zip.Archive :=
  ⟨innerComment "c1", sampleFiles.map fun f => ⟨entryName .flat "/w/a/export" f.1, f.2⟩⟩

def sampleEnvelope : Zip.Archive :=
  ⟨signedComment "c1", [⟨innerName, sampleArchive.encode⟩, ⟨signatureName, sampleArchive.encode⟩]⟩

theorem sampleArchive_fits : sampleArchive.Fits :=
  Zip.Archive.fits_of_checks (by decide +kernel)

theorem sampleEnvelope_fits : sampleEnvelope.Fits :=
  Zip.Archive.fits_of_checks (by decide +kernel)

theorem export_verifies_sample : '/' ∉ sampleConsumer.uuid.toList ∧ ∃ d',
    sampleExporter.run sampleConsumer (.certificates none) sampleMoment ["a"] sampleDisk =
      (.ok "/w/a/c1-export.zip", d') ∧
    verifyManifest (fun data given => data.data == given.data) "/w/a/c1-export.zip" d' =
      .ok ⟨sampleArchive.encode, ["7.pem", "meta.json"],
        "sha256:" ++ Text.hexOfBytes (Sha256.digest sampleArchive.encode)⟩ ∧
    verifyManifest (fun _ _ => false) "/w/a/c1-export.zip" d' = .error .signatureInvalid := by
  have single : '/' ∉ sampleConsumer.uuid.toList := by decide
  obtain ⟨d', ran, place, files⟩ := sample_files
  obtain ⟨area, tree, inner, signed, signature, opens, located, isInner, isSigned, -, -, agreed, -,
    accepted, refused⟩ := export_verifies single ran
  have known : (openArea sampleDisk "/w" ["a"]).1.toOption = some "/w/a" := by decide +kernel
  have treePath : join "/w/a" treeName = "/w/a/export" := by decide +kernel
  rw [show sampleExporter.settings.workDir = "/w" from rfl] at opens
  rw [opens] at known
  obtain rfl : area = "/w/a" := Option.some.inj known
  rw [treePath] at located isInner
  rw [located] at place
  obtain rfl : tree = ["w", "a", "export"] := Option.some.inj place
  rw [files] at isInner
  obtain rfl : inner = sampleArchive := isInner
  obtain rfl : sampleArchive.encode = signature := Except.ok.inj agreed
  obtain rfl : signed = sampleEnvelope := isSigned
  have entries : sampleArchive.entries.map Zip.Entry.name = ["7.pem", "meta.json"] := by
    decide +kernel
  refine ⟨single, d', ran, ?_, refused sampleEnvelope_fits.readsBack _ rfl⟩
  rw [accepted sampleArchive_fits.readsBack sampleEnvelope_fits.readsBack _ fun data given same => ?_,
    entries]
  obtain rfl : data = given := Except.ok.inj same
  exact beq_self_eq_true data.data

end SignedManifest.Exporter
