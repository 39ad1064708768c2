import SignedManifest.Archive.Package
import SignedManifest.Proofs.Export.Writing

/-!
What packing an export directory does. It opens and fills two files, the inner archive in the work
directory and the signed one where the consumer's id puts it, and changes nothing else.
-/
namespace SignedManifest
open SignedManifest.Path Disk

/-! ### Names of archives -/

theorem innerName_component : IsComponent innerName := by
  constructor <;> decide

def signedEnding (exportDir : String) : String := "-" ++ (fileName? exportDir).getD "export" ++ ".zip"

theorem signedFileName_eq (uuid exportDir : String) :
    signedFileName uuid exportDir = uuid ++ signedEnding exportDir := by
  simp [signedFileName, signedEnding, String.append_assoc]

theorem signedEnding_whole (exportDir : String) : '/' ∉ (signedEnding exportDir).toList := by
  have whole : '/' ∉ ((fileName? exportDir).getD "export").toList := by
    cases found : fileName? exportDir with
    | none => decide
    | some s => exact (fileName?_steps found).1.whole
  simp [signedEnding, whole]

theorem signedFileName_component {uuid : String} (single : '/' ∉ uuid.toList) (exportDir : String) :
    IsComponent (signedFileName uuid exportDir) := by
  have inside : 'z' ∈ (signedFileName uuid exportDir).toList := by simp [signedFileName]
  refine isComponent_of_mem inside (by decide) ?_
  rw [signedFileName_eq, String.toList_append, List.mem_append, not_or]
  exact ⟨single, signedEnding_whole exportDir⟩

theorem signed_steps (workDir uuid exportDir : String) :
    ∃ before s, stepsOf (join workDir (signedFileName uuid exportDir)) =
      (before ++ [s ++ signedEnding exportDir], false) ∧
      IsComponent (s ++ signedEnding exportDir) := by
  obtain ⟨above, split⟩ := segments_join workDir (signedFileName uuid exportDir)
  obtain ⟨front, s, _, ends⟩ := segments_append uuid (signedEnding_whole exportDir)
  rw [← signedFileName_eq] at ends
  have dash : '-' ∈ (s ++ signedEnding exportDir).toList := by simp [signedEnding]
  have whole : '/' ∉ (s ++ signedEnding exportDir).toList :=
    @segments_parts (signedFileName uuid exportDir) _ (by simp [ends])
  have c := isComponent_of_mem dash (by decide) whole
  refine ⟨above.filter (· ≠ "") ++ front.filter (· ≠ ""), s, ?_, c⟩
  simp [stepsOf, split, ends, List.filter_append, c.filled]

/- Whatever the consumer's id is, the two archives have different names. -/
theorem signed_step_ne {workDir uuid exportDir name : String} {before : List String}
    (steps : (stepsOf (join workDir (signedFileName uuid exportDir))).1 = before ++ [name]) :
    name ≠ innerName := by
  obtain ⟨above, s, spelled, _⟩ := signed_steps workDir uuid exportDir
  rw [spelled] at steps
  obtain ⟨_, last⟩ := List.append_inj' steps rfl
  obtain rfl : s ++ signedEnding exportDir = name := by simpa using last
  intro same
  have dash : '-' ∈ (s ++ signedEnding exportDir).toList := by simp [signedEnding]
  rw [same] at dash
  exact absurd dash (by decide)

/-! ### The entries of the inner archive -/

theorem firstRepeated_none {seen l : List String} :
    firstRepeated seen l = none ↔ l.Nodup ∧ ∀ s ∈ l, s ∉ seen := by
  induction l generalizing seen with
  | nil => simp [firstRepeated]
  | cons s r ih =>
    by_cases known : s ∈ seen
    · simp [firstRepeated, known]
    · simp only [firstRepeated, List.contains_eq_mem, known, decide_false, Bool.false_eq_true,
        ↓reduceIte, ih, List.nodup_cons, List.mem_cons, not_or]
      constructor
      · rintro ⟨nodup, apart⟩
        exact ⟨⟨fun member => (apart s member).1 rfl, nodup⟩, by
          rintro t (rfl | member)
          · exact known
          · exact (apart t member).2⟩
      · rintro ⟨⟨fresh, nodup⟩, apart⟩
        exact ⟨nodup, fun t member => ⟨fun same => fresh (same ▸ member), apart t (.inr member)⟩⟩

theorem innerEntries_ok {d : Disk} {exportDir : String} {naming : EntryNaming}
    {entries : List Zip.Entry} (listed : innerEntries d exportDir naming = .ok entries) :
    ∃ tree, d.locate exportDir = .ok tree ∧
      entries = (d.filesBelow tree).map (fun f => ⟨entryName naming exportDir f.1, f.2⟩) ∧
      (entries.map Zip.Entry.name).Nodup := by
  unfold innerEntries at listed
  split at listed
  · cases listed
  · rename_i tree found
    simp only at listed
    split at listed
    · cases listed
    · rename_i distinct
      cases listed
      exact ⟨tree, found, rfl, (firstRepeated_none.mp distinct).1⟩

/-! ### Filling one file -/

theorem aims_join {d : Disk} {base s name : String} {dir : Place} (c : IsComponent s)
    (aims : d.Aims (join base s) dir name) : d.Leads base dir ∧ name = s := by
  obtain ⟨before, steps, went⟩ := aims.way
  rw [stepsOf_join base (isAbsolute_component c), stepsOf_component c] at steps
  obtain ⟨rfl, last⟩ := List.append_inj' steps rfl
  rw [start_join d base (isAbsolute_component c)] at went
  exact ⟨⟨went, aims.isDir⟩, by simpa using last.symm⟩

section
variable {d d' : Disk} {path : String} {content : Disk → Except ExportError ByteArray}

/-- A file at the end of a path, no directory before, is all that may have changed. -/
structure Touches (d : Disk) (path : String) (dir : Place) (name : String) (d' : Disk) : Prop where
  aims : d.Aims path dir name
  openEnded : (stepsOf path).2 = false
  free : d.isDirAt (dir ++ [name]) = false
  keeps : d.Keeps d'
  others : ∀ p, p ≠ dir ++ [name] → d'.get? p = d.get? p

theorem fillFile_touches {r : Except ExportError ByteArray}
    (filled : fillFile d path content = (r, d')) :
    (∃ e, r = .error e ∧ d' = d) ∨ ∃ dir name, Touches d path dir name d' ∧
      ∀ bytes, r = .ok bytes →
        content (d.put (dir ++ [name]) (.file ByteArray.empty)) = .ok bytes ∧
          d'.get? (dir ++ [name]) = some (.file bytes) := by
  unfold fillFile at filled
  split at filled
  · cases filled
    exact .inl ⟨_, rfl, rfl⟩
  rename_i opened create
  have keeps := createFile_keeps create
  obtain ⟨dir, name, aims, slash, free, rfl⟩ := createFile_ok create
  have others : ∀ p, p ≠ dir ++ [name] →
      (d.put (dir ++ [name]) (.file ByteArray.empty)).get? p = d.get? p :=
    fun p other => by rw [get?_put d (by simp), if_neg other]
  refine .inr ⟨dir, name, ?_⟩
  split at filled
  · cases filled
    exact ⟨⟨aims, slash, free, keeps, others⟩, nofun⟩
  rename_i gathered
  split at filled
  · cases filled
    exact ⟨⟨aims, slash, free, keeps, others⟩, nofun⟩
  rename_i again
  cases filled
  have keeps' := createFile_keeps again
  obtain ⟨dir', name', aims', _, _, rfl⟩ := createFile_ok again
  obtain ⟨rfl, rfl⟩ := aims'.unique (aims.kept keeps)
  refine ⟨⟨aims, slash, free, keeps.trans keeps', fun p other => ?_⟩, fun bytes same => ?_⟩
  · rw [get?_put _ (by simp), if_neg other, others p other]
  · cases same
    exact ⟨gathered, by simp [get?_put]⟩

theorem fillFile_changes {base s : String} {r : Except ExportError ByteArray} (c : IsComponent s)
    (filled : fillFile d (join base s) content = (r, d')) :
    d.Keeps d' ∧ (∀ p, d'.get? p = d.get? p ∨ ∃ W, d.Leads base W ∧ p = W ++ [s]) ∧
      ∀ bytes, r = .ok bytes → ∃ W, d.Leads base W := by
  rcases fillFile_touches filled with ⟨e, rfl, rfl⟩ | ⟨W, name, touched, _⟩
  · exact ⟨.refl _, fun _ => .inl rfl, nofun⟩
  · obtain ⟨work, rfl⟩ := aims_join c touched.aims
    refine ⟨touched.keeps, fun p => ?_, fun _ _ => ⟨W, work⟩⟩
    by_cases here : p = W ++ [name]
    · exact .inr ⟨W, work, here⟩
    · exact .inl (touched.others p here)

end

/-! ### Packing -/

def innerArchive (uuid : String) (entries : List Zip.Entry) : Zip.Archive :=
  ⟨innerComment uuid, entries⟩

def signedArchive (uuid : String) (inner signature : ByteArray) : Zip.Archive :=
  ⟨signedComment uuid, [⟨innerName, inner⟩, ⟨signatureName, signature⟩]⟩

def IsArchivePlace (d : Disk) (workDir uuid exportDir : String) (p : Place) : Prop :=
  ∃ W, d.Leads workDir W ∧ (p = W ++ [innerName] ∨ p = W ++ [signedFileName uuid exportDir])

theorem encodeArchive_ok {a : Zip.Archive} {bytes : ByteArray}
    (encoded : encodeArchive a = .ok bytes) : bytes = a.encode := by
  unfold encodeArchive at encoded
  split at encoded
  · cases encoded
    rfl
  · cases encoded

section
variable {uuid workDir exportDir path : String} {naming : EntryNaming} {signer : Signer}
  {d d' : Disk} {r : Except ExportError String}

/-- What packing has done once it succeeds. `W` is the work directory, and `S` the place of the
signed archive. -/
structure Packed (d : Disk) (uuid workDir exportDir : String) (naming : EntryNaming)
    (signer : Signer) (W S : Place) (entries : List Zip.Entry) (signature : ByteArray)
    (d' : Disk) : Prop where
  work : d.Leads workDir W
  free : d.isDirAt (W ++ [innerName]) = false
  listed : innerEntries (d.put (W ++ [innerName]) (.file ByteArray.empty)) exportDir naming =
    .ok entries
  signed : signer (innerArchive uuid entries).encode = .ok signature
  apart : S ≠ W ++ [innerName]
  innerAims : d'.Aims (join workDir innerName) W innerName
  aims : ∃ dir name, S = dir ++ [name] ∧
    d'.Aims (join workDir (signedFileName uuid exportDir)) dir name
  openEnded : (stepsOf (join workDir (signedFileName uuid exportDir))).2 = false
  inner : d'.get? (W ++ [innerName]) = some (.file (innerArchive uuid entries).encode)
  outer : d'.get? S =
    some (.file (signedArchive uuid (innerArchive uuid entries).encode signature).encode)
  keeps : d.Keeps d'
  others : ∀ p, p ≠ W ++ [innerName] → p ≠ S → d'.get? p = d.get? p

theorem Packed.begun_keeps {W S : Place} {entries : List Zip.Entry} {signature : ByteArray}
    (packed : Packed d uuid workDir exportDir naming signer W S entries signature d') :
    (d.put (W ++ [innerName]) (.file ByteArray.empty)).Keeps d' where
  current := packed.keeps.current
  dirs p dir := by
    refine packed.keeps.dirs p ?_
    rw [isDirAt_iff, get?_put d (by simp)] at dir
    split at dir
    · cases dir
    · exact isDirAt_iff.mpr dir

section
variable {W S : Place} {entries : List Zip.Entry} {signature : ByteArray}

theorem Packed.inner_locate
    (packed : Packed d uuid workDir exportDir naming signer W S entries signature d') :
    d'.locate (join workDir innerName) = .ok (W ++ [innerName]) := by
  refine packed.innerAims.locate ?_ ⟨_, packed.inner, by simp⟩
  rw [stepsOf_join workDir (isAbsolute_component innerName_component),
    stepsOf_component innerName_component]

theorem Packed.outer_locate
    (packed : Packed d uuid workDir exportDir naming signer W S entries signature d') :
    d'.locate (join workDir (signedFileName uuid exportDir)) = .ok S := by
  obtain ⟨dir, name, rfl, aims⟩ := packed.aims
  exact aims.locate packed.openEnded ⟨_, packed.outer, by simp⟩

theorem Packed.inner_content
    (packed : Packed d uuid workDir exportDir naming signer W S entries signature d') :
    d'.content (join workDir innerName) = .ok (innerArchive uuid entries).encode :=
  content_ok.mpr ⟨_, packed.inner_locate, packed.inner⟩

theorem Packed.outer_content
    (packed : Packed d uuid workDir exportDir naming signer W S entries signature d') :
    d'.content (join workDir (signedFileName uuid exportDir)) =
      .ok (signedArchive uuid (innerArchive uuid entries).encode signature).encode :=
  content_ok.mpr ⟨_, packed.outer_locate, packed.outer⟩

theorem Packed.outer_beside (single : '/' ∉ uuid.toList)
    (packed : Packed d uuid workDir exportDir naming signer W S entries signature d') :
    S = W ++ [signedFileName uuid exportDir] := by
  obtain ⟨dir, name, rfl, aims⟩ := packed.aims
  obtain ⟨work, rfl⟩ := aims_join (signedFileName_component single exportDir) aims
  rw [work.unique (packed.work.kept packed.keeps)]

theorem Packed.kept {p : Place} {s : String} (other : ∀ stem, s ≠ stem ++ ".zip")
    (packed : Packed d uuid workDir exportDir naming signer W S entries signature d') :
    d'.get? (p ++ [s]) = d.get? (p ++ [s]) := by
  refine packed.others _ ?_ ?_
  · intro inner
    obtain ⟨_, last⟩ := List.append_inj' inner rfl
    exact other "consumer_export" (by simpa [innerName] using last)
  · obtain ⟨dir, name, rfl, aims⟩ := packed.aims
    obtain ⟨above, stem, steps, _⟩ := signed_steps workDir uuid exportDir
    obtain ⟨before, spelled, _⟩ := aims.way
    rw [steps] at spelled
    obtain ⟨_, ends⟩ := List.append_inj' spelled rfl
    intro outer
    obtain ⟨_, last⟩ := List.append_inj' outer rfl
    obtain rfl : s = stem ++ signedEnding exportDir := by simpa [← ends] using last
    exact other (stem ++ ("-" ++ (fileName? exportDir).getD "export"))
      (by simp [signedEnding, String.append_assoc])

end

theorem signed_apart {dir : Place} {name : String}
    (aims : d.Aims (join workDir (signedFileName uuid exportDir)) dir name) (W : Place) :
    dir ++ [name] ≠ W ++ [innerName] := by
  intro same
  obtain ⟨_, last⟩ := List.append_inj' same rfl
  obtain ⟨before, steps, _⟩ := aims.way
  exact signed_step_ne steps (by simpa using last)

theorem package_ok (packed : package uuid workDir exportDir naming signer d = (.ok path, d')) :
    path = join workDir (signedFileName uuid exportDir) ∧
      ∃ W S entries signature,
        Packed d uuid workDir exportDir naming signer W S entries signature d' := by
  simp only [package] at packed
  split at packed
  · cases packed
  rename_i inner e fillInner
  split at packed
  · cases packed
  rename_i signature sign
  split at packed
  · cases packed
  rename_i bytes d2 fillOuter
  cases packed
  refine ⟨rfl, ?_⟩
  obtain ⟨_, bad, _⟩ | ⟨W, name, touched, filled⟩ := fillFile_touches fillInner
  · cases bad
  obtain ⟨gathered, held⟩ := filled inner rfl
  obtain ⟨work, rfl⟩ := aims_join innerName_component touched.aims
  simp only [bind_ok] at gathered
  obtain ⟨entries, listed, encoded⟩ := gathered
  obtain rfl := encodeArchive_ok encoded
  obtain ⟨_, bad, _⟩ | ⟨dir, name, touched', filled'⟩ := fillFile_touches fillOuter
  · cases bad
  obtain ⟨gathered', held'⟩ := filled' bytes rfl
  obtain rfl := encodeArchive_ok gathered'
  have apart : dir ++ [name] ≠ W ++ [innerName] := signed_apart touched'.aims W
  exact ⟨W, dir ++ [name], entries, signature, {
    work := work
    free := touched.free
    listed := listed
    signed := sign
    apart := apart
    innerAims := (touched.aims.kept touched.keeps).kept touched'.keeps
    aims := ⟨dir, name, rfl, touched'.aims.kept touched'.keeps⟩
    openEnded := touched'.openEnded
    inner := by rw [touched'.others _ (Ne.symm apart)]; exact held
    outer := held'
    keeps := touched.keeps.trans touched'.keeps
    others := fun p here other => by rw [touched'.others p other, touched.others p here] }⟩

/- Under an id of one component packing touches two files of the work directory, whether or not it
   succeeds. -/
theorem package_changes (single : '/' ∉ uuid.toList)
    (packed : package uuid workDir exportDir naming signer d = (r, d')) :
    d.Keeps d' ∧ ∀ p, d'.get? p = d.get? p ∨ IsArchivePlace d workDir uuid exportDir p := by
  simp only [package] at packed
  split at packed
  · rename_i fillInner
    cases packed
    obtain ⟨keeps, changes, _⟩ := fillFile_changes innerName_component fillInner
    exact ⟨keeps, fun p => (changes p).imp_right fun ⟨W, work, here⟩ => ⟨W, work, .inl here⟩⟩
  rename_i inner mid fillInner
  obtain ⟨keeps, changes, reached⟩ := fillFile_changes innerName_component fillInner
  obtain ⟨W, work⟩ := reached inner rfl
  have first : ∀ p, mid.get? p = d.get? p ∨ IsArchivePlace d workDir uuid exportDir p :=
    fun p => (changes p).imp_right fun ⟨W, work, here⟩ => ⟨W, work, .inl here⟩
  -- the second file is in the same directory, which the first one left in its place
  have second : ∀ r after content,
      fillFile mid (join workDir (signedFileName uuid exportDir)) content = (r, after) →
      d.Keeps after ∧ ∀ p, after.get? p = d.get? p ∨ IsArchivePlace d workDir uuid exportDir p := by
    intro r after content fillOuter
    obtain ⟨keeps', changes', _⟩ :=
      fillFile_changes (signedFileName_component single exportDir) fillOuter
    refine ⟨keeps.trans keeps', fun p => ?_⟩
    rcases changes' p with same | ⟨W', work', here⟩
    · rw [same]
      exact first p
    · obtain rfl := work'.unique (work.kept keeps)
      exact .inr ⟨W', work, .inr here⟩
  split at packed
  · cases packed
    exact ⟨keeps, first⟩
  split at packed
  · rename_i fillOuter
    cases packed
    exact second _ _ _ fillOuter
  · rename_i fillOuter
    cases packed
    exact second _ _ _ fillOuter

end

end SignedManifest
