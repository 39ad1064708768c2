import SignedManifest.Proofs.Disk.Operations

/-!
Operations that have to succeed. Making a file at the end of a way that is open, or moving one there,
fails for nothing but a directory in its place.
-/
namespace SignedManifest.Disk
open SignedManifest.Path

variable {d d' : Disk} {path name : String} {dir : Place}

theorem Aims.target (aims : d.Aims path dir name) : d.target path = .ok (some (dir, name)) := by
  obtain ⟨before, steps, went⟩ := aims.way
  have aimed : d.target path = (do
      let dir ← d.walk (d.start path) before
      if !d.isDirAt dir then throw .notDirectory
      return some (dir, name)) := by
    simp only [Disk.target, aims.allowed, steps, List.getLast?_concat, List.dropLast_concat]
    rfl
  rw [aimed, bind_ok]
  exact ⟨dir, went, unless_ok.mpr ⟨by simp [aims.isDir], rfl⟩⟩

theorem createFile_of_aims (aims : d.Aims path dir name) (openEnded : (stepsOf path).2 = false)
    (free : d.isDirAt (dir ++ [name]) = false) (bytes : ByteArray) :
    d.createFile path bytes = .ok (d.put (dir ++ [name]) (.file bytes)) := by
  simp only [createFile, bind_ok]
  refine ⟨_, aims.target, ?_⟩
  simp only [unless_ok]
  refine ⟨?_, Nat.not_lt.mpr aims.short, by simp [free], rfl⟩
  simp [aims.component.here, aims.component.above, openEnded]

theorem renameFile_of_aims {source : String} {old : Place} {bytes : ByteArray}
    (found : d.locate source = .ok old) (held : d.get? old = some (.file bytes))
    (aims : d.Aims path dir name) (openEnded : (stepsOf path).2 = false)
    (free : d.isDirAt (dir ++ [name]) = false) :
    d.renameFile source path = .ok ((d.remove old).put (dir ++ [name]) (.file bytes)) := by
  simp only [renameFile, moveTo, bind_ok]
  refine ⟨old, found, ?_⟩
  rw [held]
  simp only [bind_ok]
  refine ⟨_, aims.target, ?_⟩
  simp only [unless_ok]
  refine ⟨?_, by simp [openEnded], Nat.not_lt.mpr aims.short, by simp [free], rfl⟩
  simp [aims.component.here, aims.component.above]

theorem createFile_again {bytes : ByteArray} (made : d.createFile path bytes = .ok d')
    (again : ByteArray) : ∃ d'', d'.createFile path again = .ok d'' := by
  have keeps := createFile_keeps made
  obtain ⟨dir, name, aims, openEnded, _, rfl⟩ := createFile_ok made
  have free : (d.put (dir ++ [name]) (.file bytes)).isDirAt (dir ++ [name]) = false := by
    simp [isDirAt, get?_put d]
  exact ⟨_, createFile_of_aims (aims.kept keeps) openEnded free again⟩

end SignedManifest.Disk
