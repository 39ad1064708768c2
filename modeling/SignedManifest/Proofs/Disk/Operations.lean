import SignedManifest.Proofs.Disk.Walking

/-!
What each operation on files does when it succeeds: which place it changes, and that it leaves every
directory where it is.
-/
namespace SignedManifest

/-! ### Steps that may fail -/

section
variable {ε α β : Type}

theorem bind_ok {x : Except ε α} {f : α → Except ε β} {b : β} :
    (x >>= f) = .ok b ↔ ∃ a, x = .ok a ∧ f a = .ok b := by
  cases x <;> simp [bind, Except.bind]

theorem throw_ok {e : ε} {a : α} : (throw e : Except ε α) = .ok a ↔ False := by
  simp [throw, throwThe, MonadExceptOf.throw]

theorem pure_ok {a b : α} : (pure a : Except ε α) = .ok b ↔ a = b := by
  simp [pure, Except.pure]

theorem unless_ok {c : Prop} [Decidable c] {e : ε} {f : α → Except ε β} {x : Except ε β} {b : β} :
    (if c then throw e >>= f else x) = .ok b ↔ ¬ c ∧ x = .ok b := by
  by_cases h : c <;> simp [h, bind_ok, throw_ok]

theorem toOption_ok {x : Except ε α} {a : α} : x.toOption = some a ↔ x = .ok a := by
  cases x <;> simp [Except.toOption]

theorem answered_with {σ : Type} {r : Except ε α × σ} {a : α} (test : σ → Bool)
    (answer : (match r with | (.ok b, s) => some (b, test s) | (.error _, _) => none) = some (a, true)) :
    ∃ s, r = (.ok a, s) ∧ test s = true := by
  obtain ⟨e | b, s⟩ := r
  · cases answer
  · obtain ⟨rfl, passed⟩ := Prod.mk.inj (Option.some.inj answer)
    exact ⟨s, rfl, passed⟩

theorem answered {σ : Type} {r : Except ε α × σ} {a : α} (answer : r.1.toOption = some a) :
    ∃ s, r = (.ok a, s) := by
  obtain ⟨_, s⟩ := r
  exact ⟨s, by rw [← toOption_ok.mp answer]⟩

theorem refused {σ : Type} {r : Except ε α × σ} {e : ε} (refusal : r.1 = .error e) :
    ∃ s, r = (.error e, s) := by
  obtain ⟨_, s⟩ := r
  exact ⟨s, by rw [← refusal]⟩

end

namespace Disk
open SignedManifest.Path

/-! ### What a path aims at -/

/-- The last step of a path is a name in a directory that the steps before it lead to. -/
structure Aims (d : Disk) (path : String) (dir : Place) (name : String) : Prop where
  allowed : checkPath path = .ok ()
  way : ∃ before, (stepsOf path).1 = before ++ [name] ∧ d.walk (d.start path) before = .ok dir
  isDir : d.isDirAt dir = true
  component : IsComponent name
  short : name.utf8ByteSize ≤ nameLimit

theorem aims_of_target {d : Disk} {path name : String} {dir : Place}
    (aimed : d.target path = .ok (some (dir, name))) (plain : ¬ (name = "." ∨ name = ".."))
    (short : ¬ name.utf8ByteSize > nameLimit) : d.Aims path dir name := by
  simp only [target, bind_ok] at aimed
  obtain ⟨u, allowed, aimed⟩ := aimed
  split at aimed
  · simp [pure_ok] at aimed
  · rename_i last found
    obtain ⟨before, steps⟩ := List.getLast?_eq_some_iff.mp found
    simp only [steps, List.dropLast_concat, bind_ok, unless_ok, pure_ok, Option.some.injEq,
      Prod.mk.injEq, Bool.not_eq_true'] at aimed
    obtain ⟨_, went, isDir, rfl, rfl⟩ := aimed
    have member : last ∈ (stepsOf path).1 := by simp [steps]
    obtain ⟨part, filled⟩ := List.mem_filter.mp member
    exact ⟨allowed, ⟨before, steps, went⟩, by simpa using isDir,
      ⟨by simpa using filled, fun h => plain (.inl h), fun h => plain (.inr h),
        segments_parts part⟩, Nat.not_lt.mp short⟩

theorem Aims.unique {d : Disk} {path : String} {dir dir' : Place} {name name' : String}
    (one : d.Aims path dir name) (two : d.Aims path dir' name') : dir = dir' ∧ name = name' := by
  obtain ⟨before, steps, went⟩ := one.way
  obtain ⟨before', steps', went'⟩ := two.way
  obtain ⟨rfl, last⟩ := List.append_inj' (steps.symm.trans steps') rfl
  exact ⟨Except.ok.inj (went.symm.trans went'), by simpa using last⟩

theorem Aims.kept {d d' : Disk} {path name : String} {dir : Place} (aims : d.Aims path dir name)
    (keeps : d.Keeps d') : d'.Aims path dir name := by
  obtain ⟨before, steps, went⟩ := aims.way
  exact { aims with
    way := ⟨before, steps, keeps.start path ▸ keeps.walk_dir went aims.isDir⟩
    isDir := keeps.dirs dir aims.isDir }

theorem Aims.walk {d : Disk} {path name : String} {dir : Place} (aims : d.Aims path dir name)
    (stands : d.Stands (dir ++ [name])) :
    d.walk (d.start path) (stepsOf path).1 = .ok (dir ++ [name]) := by
  obtain ⟨before, steps, went⟩ := aims.way
  have step : d.step dir name = .ok (dir ++ [name]) :=
    step_ok.mpr ⟨aims.isDir, .inr (.inr ⟨aims.component.here, aims.component.above, aims.short,
      stands, rfl⟩)⟩
  rw [steps]
  exact walk_append_ok.mpr ⟨dir, went, walk_one.mpr step⟩

theorem Aims.locate {d : Disk} {path name : String} {dir : Place} (aims : d.Aims path dir name)
    (openEnded : (stepsOf path).2 = false) (stands : d.Stands (dir ++ [name])) :
    d.locate path = .ok (dir ++ [name]) := by
  simp only [Disk.locate, bind_ok, openEnded, Bool.false_eq_true, ↓reduceIte]
  exact ⟨(), aims.allowed, aims.walk stands⟩

/-! ### Operations that succeed -/

theorem makeDir_ok {d d' : Disk} {path : String} (made : d.makeDir path = .ok d') :
    ∃ dir name, d.Aims path dir name ∧ d.get? (dir ++ [name]) = none ∧
      d' = d.put (dir ++ [name]) .dir := by
  simp only [makeDir, bind_ok] at made
  obtain ⟨aimed, target, made⟩ := made
  split at made
  · simp [throw_ok] at made
  · rename_i dir name
    simp only [unless_ok, pure_ok] at made
    obtain ⟨plain, short, free, rfl⟩ := made
    exact ⟨dir, name, aims_of_target target plain short, by simpa using free, rfl⟩

theorem createFile_ok {d d' : Disk} {path : String} {bytes : ByteArray}
    (made : d.createFile path bytes = .ok d') :
    ∃ dir name, d.Aims path dir name ∧ (stepsOf path).2 = false ∧
      d.isDirAt (dir ++ [name]) = false ∧ d' = d.put (dir ++ [name]) (.file bytes) := by
  simp only [createFile, bind_ok] at made
  obtain ⟨aimed, target, made⟩ := made
  split at made
  · simp [throw_ok] at made
  · rename_i dir name
    simp only [unless_ok, pure_ok] at made
    obtain ⟨plain, short, free, rfl⟩ := made
    refine ⟨dir, name, aims_of_target target (fun h => plain (h.imp_right .inl)) short, ?_, ?_, rfl⟩
    · simpa using fun h => plain (.inr (.inr h))
    · simpa using free

theorem renameFile_ok {d d' : Disk} {source path : String}
    (moved : d.renameFile source path = .ok d') :
    ∃ old bytes dir name, d.locate source = .ok old ∧ d.get? old = some (.file bytes) ∧
      d.Aims path dir name ∧ (stepsOf path).2 = false ∧ d.isDirAt (dir ++ [name]) = false ∧
      d' = (d.remove old).put (dir ++ [name]) (.file bytes) := by
  simp only [renameFile, moveTo, bind_ok] at moved
  obtain ⟨old, found, moved⟩ := moved
  split at moved
  · rename_i bytes held
    simp only [bind_ok] at moved
    obtain ⟨aimed, target, moved⟩ := moved
    split at moved
    · simp [throw_ok] at moved
    · rename_i dir name
      simp only [unless_ok, pure_ok] at moved
      obtain ⟨plain, open_ended, short, free, rfl⟩ := moved
      exact ⟨old, bytes, dir, name, found, held, aims_of_target target plain short,
        by simpa using open_ended, by simpa using free, rfl⟩
  · simp [throw_ok] at moved

theorem content_ok {d : Disk} {path : String} {bytes : ByteArray} :
    d.content path = .ok bytes ↔ ∃ p, d.locate path = .ok p ∧ d.get? p = some (.file bytes) := by
  simp only [content, bind_ok]
  refine exists_congr fun p => and_congr_right fun _ => ?_
  split <;> simp_all [throw_ok, pure_ok]

theorem contentText_ok {d : Disk} {path text : String} (held : d.content path = .ok text.toUTF8) :
    d.contentText path = .ok text := by
  have back : String.fromUTF8? text.toUTF8 = some text := dif_pos text.isValidUTF8
  exact bind_ok.mpr ⟨_, held, by rw [back]; rfl⟩

theorem Keeps.locate {d d' : Disk} (keeps : d.Keeps d') {path : String} {p : Place}
    (found : d.locate path = .ok p) (stands : d'.Stands p) : d'.locate path = .ok p := by
  simp only [Disk.locate, bind_ok] at found ⊢
  obtain ⟨_, allowed, went⟩ := found
  refine ⟨(), allowed, ?_⟩
  rw [keeps.start path]
  exact keeps.walk went stands

theorem Keeps.content {d d' : Disk} (keeps : d.Keeps d') {path : String} {p : Place}
    {bytes : ByteArray} (found : d.locate path = .ok p) (held : d'.get? p = some (.file bytes)) :
    d'.content path = .ok bytes :=
  content_ok.mpr ⟨p, keeps.locate found ⟨_, held, by simp⟩, held⟩

/-! ### The name of what a path leads to -/

theorem walk_dots {d : Disk} {p q : Place} {dots : List String} (here : ∀ s ∈ dots, s = ".")
    (went : d.walk p dots = .ok q) : q = p := by
  induction dots with
  | nil =>
    cases went
    rfl
  | cons s r ih =>
    obtain rfl := here s (by simp)
    obtain ⟨next, stepped, onward⟩ := walk_cons_ok.mp went
    rcases (step_ok.mp stepped).2 with ⟨_, rfl⟩ | ⟨bad, _⟩ | ⟨bad, _⟩
    · exact ih (fun t member => here t (List.mem_cons_of_mem _ member)) onward
    · simp at bad
    · exact absurd rfl bad

theorem locate_fileName {d : Disk} {path s : String} {p : Place} (named : fileName? path = some s)
    (found : d.locate path = .ok p) : ∃ above, p = above ++ [s] := by
  obtain ⟨c, before, dots, steps, here⟩ := fileName?_steps named
  simp only [Disk.locate, bind_ok] at found
  obtain ⟨_, _, went⟩ := found
  obtain ⟨more, all, still⟩ : ∃ more, (if (stepsOf path).2 then (stepsOf path).1 ++ ["."]
      else (stepsOf path).1) = before ++ ([s] ++ more) ∧ ∀ t ∈ more, t = "." := by
    split
    · exact ⟨dots ++ ["."], by simp [steps], by simpa [or_imp] using here⟩
    · exact ⟨dots, by simp [steps], here⟩
  rw [all] at went
  obtain ⟨q, _, went⟩ := walk_append_ok.mp went
  obtain ⟨r, down, stay⟩ := walk_append_ok.mp went
  obtain rfl := walk_dots still stay
  exact ⟨q, walk_components (by simpa using c) down⟩

/-! ### Directories stay -/

theorem put_dir_keeps (d : Disk) {p : Place} (below : p ≠ []) : d.Keeps (d.put p .dir) where
  current := rfl
  dirs q dir := by
    rw [isDirAt_iff] at dir ⊢
    rw [get?_put d below]
    split <;> simp [dir]

theorem ne_root {d : Disk} {p : Place} (free : d.isDirAt p = false) : p ≠ [] := by
  rintro rfl
  simp [isDirAt] at free

theorem keeps_of_others {d d' : Disk} {p : Place} (current : d'.current = d.current)
    (free : d.isDirAt p = false) (others : ∀ q, q ≠ p → d'.get? q = d.get? q) : d.Keeps d' where
  current := current
  dirs q dir := by
    have other : q ≠ p := by
      rintro rfl
      simp [dir] at free
    rwa [isDirAt_iff, others q other, ← isDirAt_iff]

theorem put_file_keeps {d : Disk} {p : Place} (bytes : ByteArray) (free : d.isDirAt p = false) :
    d.Keeps (d.put p (.file bytes)) :=
  keeps_of_others rfl free fun q other => by rw [get?_put d (ne_root free), if_neg other]

theorem remove_keeps {d : Disk} {p : Place} (free : d.isDirAt p = false) : d.Keeps (d.remove p) :=
  keeps_of_others rfl free fun q other => by rw [get?_remove d (ne_root free), if_neg other]

theorem createFile_keeps {d d' : Disk} {path : String} {bytes : ByteArray}
    (made : d.createFile path bytes = .ok d') : d.Keeps d' := by
  obtain ⟨dir, name, _, _, free, rfl⟩ := createFile_ok made
  exact put_file_keeps bytes free

theorem remove_free {d : Disk} {p q : Place} (gone : d.isDirAt p = false)
    (free : d.isDirAt q = false) : (d.remove p).isDirAt q = false := by
  rw [Bool.eq_false_iff] at free ⊢
  rw [Ne, isDirAt_iff, get?_remove d (ne_root gone)]
  split
  · simp
  · rwa [← isDirAt_iff]

theorem renameFile_keeps {d d' : Disk} {source path : String}
    (moved : d.renameFile source path = .ok d') : d.Keeps d' := by
  obtain ⟨old, bytes, dir, name, _, held, _, _, free, rfl⟩ := renameFile_ok moved
  have gone : d.isDirAt old = false := by simp [isDirAt, held]
  exact (remove_keeps gone).trans (put_file_keeps bytes (remove_free gone free))

/-! ### Making directories -/

/-- A place that the steps of a path lead through or to. -/
def OnWay (d : Disk) (path : String) (p : Place) : Prop :=
  ∃ steps, steps <+: (stepsOf path).1 ∧ d.walk (d.start path) steps = .ok p

structure MakesDirs (d : Disk) (path : String) (d' : Disk) : Prop where
  keeps : d.Keeps d'
  made : ∀ p, d'.get? p = d.get? p ∨
    d.get? p = none ∧ d'.get? p = some .dir ∧ d'.OnWay path p

theorem MakesDirs.refl (d : Disk) (path : String) : d.MakesDirs path d :=
  ⟨.refl d, fun _ => .inl rfl⟩

theorem OnWay.kept {d d' : Disk} {path : String} {p : Place} (onWay : d.OnWay path p)
    (dir : d.isDirAt p = true) (keeps : d.Keeps d') : d'.OnWay path p := by
  obtain ⟨steps, first, went⟩ := onWay
  exact ⟨steps, first, keeps.start path ▸ keeps.walk_dir went dir⟩

theorem OnWay.above {d : Disk} {path above : String} {p : Place} (found : parent? path = some above)
    (onWay : d.OnWay above p) : d.OnWay path p := by
  obtain ⟨steps, first, went⟩ := onWay
  obtain ⟨absolute, shorter⟩ := parent?_steps found
  refine ⟨steps, first.trans shorter, ?_⟩
  simpa only [start, absolute] using went

theorem MakesDirs.above {d d' : Disk} {path above : String} (found : parent? path = some above)
    (makes : d.MakesDirs above d') : d.MakesDirs path d' :=
  ⟨makes.keeps, fun p => (makes.made p).imp_right fun ⟨free, dir, onWay⟩ =>
    ⟨free, dir, onWay.above found⟩⟩

theorem MakesDirs.trans {a b c : Disk} {path : String} (first : a.MakesDirs path b)
    (second : b.MakesDirs path c) : a.MakesDirs path c where
  keeps := first.keeps.trans second.keeps
  made p := by
    rcases first.made p with same | ⟨free, dir, onWay⟩
    · simpa only [same] using second.made p
    · have stays := isDirAt_iff.mp (second.keeps.dirs p (isDirAt_iff.mpr dir))
      exact .inr ⟨free, stays, onWay.kept (isDirAt_iff.mpr dir) second.keeps⟩

theorem makeDir_makes {d d' : Disk} {path : String} (made : d.makeDir path = .ok d') :
    d.MakesDirs path d' := by
  obtain ⟨dir, name, aims, free, rfl⟩ := makeDir_ok made
  have keeps := put_dir_keeps d (p := dir ++ [name]) (by simp)
  refine ⟨keeps, fun p => ?_⟩
  rw [get?_put d (by simp)]
  split
  · rename_i here
    subst here
    have stands : (d.put (dir ++ [name]) .dir).Stands (dir ++ [name]) :=
      ⟨.dir, by simp [get?_put d], by simp⟩
    exact .inr ⟨free, rfl, _, List.prefix_rfl, (aims.kept keeps).walk stands⟩
  · exact .inl rfl

/- The induction is on the fuel; the directories above are made first and lie on the same way. -/
theorem makeDirs_makes (d : Disk) (path : String) (n : Nat) :
    d.MakesDirs path (d.makeDirs path n).2 := by
  induction n generalizing d path with
  | zero => exact .refl d path
  | succ n ih =>
    simp only [makeDirs] at ih ⊢
    rw [FileSystem.makeDirs]
    split
    · exact .refl d path
    split
    · rename_i made done
      exact makeDir_makes done
    · split
      · exact .refl d path
      · rename_i above found
        have upper := (ih d above).above found
        split
        · rename_i same
          simpa only [same] using upper
        · rename_i same
          rw [same] at upper
          split
          · rename_i done
            exact upper.trans (makeDir_makes done)
          · split <;> exact upper
    · split <;> exact .refl d path

theorem makeDirAll_makes (d : Disk) (path : String) : d.MakesDirs path (d.makeDirAll path).2 :=
  makeDirs_makes d path _

end Disk
end SignedManifest
