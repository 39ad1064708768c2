import SignedManifest.Proofs.Archive.Packing
import SignedManifest.Proofs.Disk.Listing
import SignedManifest.Proofs.Zip.RoundTrip

/-!
The two layers that packing makes of a tree. The inner archive depends on the files of the tree
alone, not on how they came there, and the signed one binds its bytes to their signature.
-/
namespace SignedManifest
open SignedManifest.Path Disk

variable {uuid workDir exportDir path : String} {naming : EntryNaming} {signer : Signer}
  {d d' : Disk} {tree : Place} {files : SortedMap Place ByteArray}

theorem entryName_flat (exportDir : String) (before : Place) (last : String) :
    entryName .flat exportDir (before ++ [last]) = last := by
  simp [entryName]

/- Below a directory that has a name, a relative entry name is the path below the one above it. -/
theorem entryName_relative {base : String} (named : fileName? exportDir = some base) (names : Place) :
    entryName .relative exportDir names = "/".intercalate (base :: names) := by
  simp [entryName, named]

theorem entryName_nameless (nameless : fileName? exportDir = none) (names : Place) :
    entryName .relative exportDir names = "/".intercalate names := by
  simp [entryName, nameless]

theorem filesBelow_beside {W : Place} {s : String} {bytes : ByteArray}
    (free : d.isDirAt (W ++ [s]) = false) (isDir : d.isDirAt tree = true) (outside : ¬ tree <+: W) :
    (d.put (W ++ [s]) (.file bytes)).filesBelow tree = d.filesBelow tree := by
  have other : ∀ names, tree ++ names ≠ W ++ [s] := by
    intro names same
    rcases List.eq_nil_or_concat' names with rfl | ⟨before, last, rfl⟩
    · rw [List.append_nil] at same
      rw [same, free] at isDir
      cases isDir
    · rw [← List.append_assoc] at same
      exact outside ⟨before, (List.append_inj' same rfl).1⟩
  exact filesBelow_congr fun names bytes _ => by rw [get?_put d (by simp), if_neg (other names)]

theorem Packed.entries_eq {W S : Place} {entries : List Zip.Entry} {signature : ByteArray}
    (packed : Packed d uuid workDir exportDir naming signer W S entries signature d')
    (located : d.locate exportDir = .ok tree) (isDir : d.isDirAt tree = true)
    (holds : ∀ names bytes, files.get? names = some bytes ↔
      names ≠ [] ∧ d.get? (tree ++ names) = some (.file bytes))
    (outside : ¬ tree <+: W) :
    entries = files.toList.map fun f => ⟨entryName naming exportDir f.1, f.2⟩ := by
  obtain ⟨place, found, rfl, _⟩ := innerEntries_ok packed.listed
  have begun := put_file_keeps ByteArray.empty packed.free
  have stands := stands_of_isDirAt (begun.dirs tree isDir)
  obtain rfl := Except.ok.inj (found.symm.trans (begun.locate located stands))
  have map : d.fileMap place = files := SortedMap.ext_get? fun names bytes => by
    rw [fileMap_get?, ← holds]
  rw [filesBelow_beside packed.free isDir outside, ← map]
  rfl

theorem package_layers (located : d.locate exportDir = .ok tree) (isDir : d.isDirAt tree = true)
    (holds : ∀ names bytes, files.get? names = some bytes ↔
      names ≠ [] ∧ d.get? (tree ++ names) = some (.file bytes))
    (outside : ∀ W, d.Leads workDir W → ¬ tree <+: W)
    (packed : package uuid workDir exportDir naming signer d = (.ok path, d')) :
    ∃ (inner signed : Zip.Archive) (signature : ByteArray),
      inner = ⟨innerComment uuid, files.toList.map fun f => ⟨entryName naming exportDir f.1, f.2⟩⟩ ∧
      signed = ⟨signedComment uuid, [⟨innerName, inner.encode⟩, ⟨signatureName, signature⟩]⟩ ∧
      files.toList.Pairwise (fun f g => f.1.map Text.utf8 < g.1.map Text.utf8) ∧
      (naming = .flat → ∀ before last, entryName naming exportDir (before ++ [last]) = last) ∧
      (naming = .relative → ∀ base, fileName? exportDir = some base →
        (∃ above, tree = above ++ [base]) ∧
        ∀ names, entryName naming exportDir names = "/".intercalate (base :: names)) ∧
      (naming = .relative → fileName? exportDir = none →
        ∀ names, entryName naming exportDir names = "/".intercalate names) ∧
      d'.content (join workDir innerName) = .ok inner.encode ∧
      signer inner.encode = .ok signature ∧
      d'.content path = .ok signed.encode ∧
      (inner.ReadsBack → Zip.listing? inner.encode =
        some (files.toList.map fun f => (entryName naming exportDir f.1, .ok f.2))) ∧
      (signed.ReadsBack → Zip.listing? signed.encode =
        some [(innerName, .ok inner.encode), (signatureName, .ok signature)]) := by
  obtain ⟨rfl, W, S, entries, signature, done⟩ := package_ok packed
  obtain rfl := done.entries_eq located isDir holds (outside W done.work)
  refine ⟨_, _, signature, rfl, rfl, files.ascending.imp compare_place.mp, ?_, ?_, ?_,
    done.inner_content, done.signed, done.outer_content, fun back => ?_, fun back => back⟩
  · rintro rfl before last
    exact entryName_flat exportDir before last
  · rintro rfl base named
    exact ⟨locate_fileName named located, entryName_relative named⟩
  · rintro rfl nameless
    exact entryName_nameless nameless
  · rw [back, List.map_map]
    rfl

/-! ### A small tree -/

/-- A tree that is listed by components: `a` comes before `a-b`, and `a/x` would come after it. -/
def sampleTree : Disk :=
  ((({ : Disk }.put ["t"] .dir).put ["t", "a"] .dir).put ["t", "a", "x"] (.file ⟨#[1]⟩)).put
    ["t", "a-b"] (.file ⟨#[2, 3]⟩)

theorem sampleTree_files : (sampleTree.fileMap ["t"]).toList =
    [(["a", "x"], ⟨#[1]⟩), (["a-b"], ⟨#[2, 3]⟩)] := by
  decide +kernel

theorem sampleTree_outside {W : Place} (work : sampleTree.Leads "/" W) : ¬ ["t"] <+: W := by
  have root : sampleTree.Leads "/" [] := ⟨by decide +kernel, by decide +kernel⟩
  rw [work.unique root]
  decide

def sampleInner : Zip.Archive :=
  ⟨innerComment "c1", [⟨"t/a/x", ⟨#[1]⟩⟩, ⟨"t/a-b", ⟨#[2, 3]⟩⟩]⟩

def sampleSigned : Zip.Archive :=
  ⟨signedComment "c1", [⟨innerName, sampleInner.encode⟩, ⟨signatureName, sampleInner.encode⟩]⟩

theorem sampleInner_fits : sampleInner.Fits :=
  Zip.Archive.fits_of_checks (by decide +kernel)

theorem sampleSigned_fits : sampleSigned.Fits :=
  Zip.Archive.fits_of_checks (by decide +kernel)

theorem package_layers_sample : ∃ d',
    package "c1" "/" "/t" .relative .ok sampleTree = (.ok "/c1-t.zip", d') ∧
    d'.content "/consumer_export.zip" = .ok sampleInner.encode ∧
    Zip.listing? sampleInner.encode = some [("t/a/x", .ok ⟨#[1]⟩), ("t/a-b", .ok ⟨#[2, 3]⟩)] ∧
    d'.content "/c1-t.zip" = .ok sampleSigned.encode ∧
    Zip.listing? sampleSigned.encode =
      some [(innerName, .ok sampleInner.encode), (signatureName, .ok sampleInner.encode)] := by
  obtain ⟨d', packed⟩ := answered (r := package "c1" "/" "/t" .relative .ok sampleTree)
    (a := "/c1-t.zip") (by decide +kernel)
  have located : sampleTree.locate "/t" = .ok ["t"] := by decide +kernel
  have isDir : sampleTree.isDirAt ["t"] = true := by decide +kernel
  have holds : ∀ names bytes, (sampleTree.fileMap ["t"]).get? names = some bytes ↔
      names ≠ [] ∧ sampleTree.get? (["t"] ++ names) = some (.file bytes) := fun _ _ => fileMap_get?
  obtain ⟨inner, signed, signature, isInner, isSigned, -, -, -, -, innerHeld, agreed, signedHeld,
    innerRead, signedRead⟩ := package_layers located isDir holds (fun _ => sampleTree_outside) packed
  have one : entryName .relative "/t" ["a", "x"] = "t/a/x" := by decide +kernel
  have two : entryName .relative "/t" ["a-b"] = "t/a-b" := by decide +kernel
  have beside : join "/" innerName = "/consumer_export.zip" := by decide +kernel
  obtain rfl : inner = sampleInner := by simp [isInner, sampleTree_files, one, two, sampleInner]
  obtain rfl : sampleInner.encode = signature := Except.ok.inj agreed
  obtain rfl : signed = sampleSigned := isSigned
  have read := innerRead sampleInner_fits.readsBack
  rw [sampleTree_files] at read
  simp only [List.map_cons, List.map_nil, one, two] at read
  exact ⟨d', packed, beside ▸ innerHeld, read, signedHeld, signedRead sampleSigned_fits.readsBack⟩

end SignedManifest
