import SignedManifest.Cli.Run
import SignedManifest.Proofs.Archive.Packing

/-!
Copies of archives. Copying empties the target first, so it gives the bytes of the source where the
two are different files, and that they are where the directory for the copy is not the archive's own.
-/
namespace SignedManifest

theorem Disk.MakesDirs.file {d d' : Disk} {dir : String} {P : Place} {bytes : ByteArray}
    (makes : d.MakesDirs dir d') (held : d.get? P = some (.file bytes)) :
    d'.get? P = some (.file bytes) := by
  rcases makes.made P with same | ⟨free, _⟩
  · exact same.trans held
  · simp [held] at free

namespace Cli
open SignedManifest.Path Disk

variable {d d' : Disk} {archive source target dir path : String} {bytes : ByteArray} {P : Place}

/- What is copied is what the source holds once the target is empty. -/
theorem copyFile_ok (copied : copyFile source target d = (.ok (), d')) :
    ∃ above name bytes, Touches d target above name d' ∧
      (d.put (above ++ [name]) (.file ByteArray.empty)).content source = .ok bytes ∧
      d'.get? (above ++ [name]) = some (.file bytes) := by
  unfold copyFile at copied
  split at copied
  · cases copied
  rename_i emptied empties
  split at copied
  · cases copied
  rename_i full fills
  cases copied
  obtain ⟨_, _, empties⟩ := bind_ok.mp empties
  obtain ⟨bytes, read, fills⟩ := bind_ok.mp fills
  have keeps := createFile_keeps empties
  have keeps' := createFile_keeps fills
  obtain ⟨above, name, aims, openEnded, free, rfl⟩ := createFile_ok empties
  obtain ⟨above', name', aims', _, _, rfl⟩ := createFile_ok fills
  obtain ⟨rfl, rfl⟩ := aims'.unique (aims.kept keeps)
  refine ⟨above', name', bytes, ⟨aims, openEnded, free, keeps.trans keeps', fun p other => ?_⟩, read,
    by simp [get?_put]⟩
  rw [get?_put _ (by simp), if_neg other, get?_put _ (by simp), if_neg other]

theorem copyFile_content (found : d.locate source = .ok P) (held : d.get? P = some (.file bytes))
    (apart : ∀ above name, d.Aims target above name → P ≠ above ++ [name])
    (copied : copyFile source target d = (.ok (), d')) :
    d.Keeps d' ∧ d'.content target = .ok bytes := by
  obtain ⟨above, name, taken, touched, read, full⟩ := copyFile_ok copied
  have begun := put_file_keeps ByteArray.empty touched.free
  have kept : (d.put (above ++ [name]) (.file ByteArray.empty)).get? P = some (.file bytes) := by
    rw [get?_put d (by simp), if_neg (apart above name touched.aims), held]
  obtain rfl : taken = bytes := Except.ok.inj (read.symm.trans (begun.content found kept))
  have place := (touched.aims.kept touched.keeps).locate touched.openEnded ⟨_, full, by simp⟩
  exact ⟨touched.keeps, content_ok.mpr ⟨_, place, full⟩⟩

theorem copyInto_ok (copied : copyInto archive dir d = (.ok path, d')) :
    ∃ made name, d.MakesDirs dir made ∧ fileName? archive = some name ∧ path = join dir name ∧
      copyFile archive (join dir name) made = (.ok (), d') := by
  unfold copyInto at copied
  split at copied
  · cases copied
  rename_i made makes
  have makes : d.MakesDirs dir made := by
    have all := makeDirAll_makes d dir
    rwa [makes] at all
  split at copied
  · cases copied
  rename_i name named
  dsimp only at copied
  split at copied
  · rename_i full copy
    cases copied
    exact ⟨made, name, makes, named, rfl, copy⟩
  · cases copied

theorem copyInto_content {name : String} (named : fileName? archive = some name)
    (found : d.locate archive = .ok P) (held : d.get? P = some (.file bytes))
    (outside : d.Keeps d' → ∀ O, d'.Leads dir O → P ≠ O ++ [name])
    (copied : copyInto archive dir d = (.ok path, d')) :
    d.Keeps d' ∧ path = join dir name ∧ d'.content path = .ok bytes := by
  obtain ⟨made, name', makes, named', rfl, copy⟩ := copyInto_ok copied
  obtain rfl := Option.some.inj (named'.symm.trans named)
  have stands := makes.file held
  have c := (fileName?_steps named).1
  obtain ⟨_, _, _, touched, _⟩ := copyFile_ok copy
  have keeps := makes.keeps.trans touched.keeps
  obtain ⟨_, content⟩ := copyFile_content (makes.keeps.locate found ⟨_, stands, by simp⟩) stands
    (fun O last aims => by
      obtain ⟨leads, rfl⟩ := aims_join c aims
      exact outside keeps O (leads.kept touched.keeps)) copy
  exact ⟨keeps, rfl, content⟩

/- The path that is printed is that of a file with the bytes of the archive, in the directory that was
   asked for or else where the archive was made. -/
theorem deliver_ok {area name : String} {out : Option String} {A : Place} {printed : Printed}
    (c : IsComponent name) (leads : d.Leads area A) (found : d.locate (join area name) = .ok (A ++ [name]))
    (held : d.get? (A ++ [name]) = some (.file bytes))
    (outside : ∀ dir O, out = some dir → d'.Leads area A → d'.Leads dir O → ¬ A <+: O)
    (delivered : deliver (join area name) out d = (.ok printed, d')) :
    printed = { output := join (out.getD area) name ++ "\n" } ∧
      d'.content (join (out.getD area) name) = .ok bytes := by
  unfold deliver at delivered
  split at delivered
  · cases delivered
    exact ⟨rfl, content_ok.mpr ⟨_, found, held⟩⟩
  rename_i dir
  split at delivered
  · rename_i moved
    cases delivered
    obtain ⟨_, rfl, arrived⟩ := copyInto_content (fileName?_join area c) found held
      (fun keeps O out same => by
        obtain ⟨rfl, _⟩ := List.append_inj' same rfl
        exact outside dir A rfl (leads.kept keeps) out List.prefix_rfl) moved
    exact ⟨rfl, arrived⟩
  · cases delivered

theorem deliver_others {out : Option String} {printed : Printed}
    (delivered : deliver archive out d = (.ok printed, d')) (held : d.get? P = some (.file bytes))
    (apart : ∀ dir name O, out = some dir → fileName? archive = some name → d'.Leads dir O →
      P ≠ O ++ [name]) :
    d'.get? P = some (.file bytes) := by
  unfold deliver at delivered
  split at delivered
  · cases delivered
    exact held
  rename_i dir
  split at delivered
  · rename_i path left copied
    cases delivered
    obtain ⟨made, name, makes, named, _, copy⟩ := copyInto_ok copied
    obtain ⟨O, last, _, touched, _⟩ := copyFile_ok copy
    obtain ⟨leads, rfl⟩ := aims_join (fileName?_steps named).1 touched.aims
    rw [touched.others P (apart dir last O rfl named (leads.kept touched.keeps))]
    exact makes.file held
  · cases delivered

end Cli

end SignedManifest
