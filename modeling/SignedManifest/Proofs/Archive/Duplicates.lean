import Mathlib.Data.List.Nodup
import SignedManifest.Proofs.Archive.Layers
import SignedManifest.Proofs.Archive.Refusing

/-!
Files of one name. Packing a tree under bare names ends at the first file in the order of the tree whose
name an earlier file has, so it ends exactly if two directories hold files of one name. Under relative
names no two entries are ever named alike.
-/
namespace SignedManifest
open SignedManifest.Path

/-! ### Files that share a name -/

namespace Disk

def HasFile (d : Disk) (p : Place) : Prop := ∃ bytes, d.get? p = some (.file bytes)

/-- A place comes before another in a tree that is listed by name: at the first names that differ, the
bytes do. -/
def Before (p q : Place) : Prop := p.map Text.utf8 < q.map Text.utf8

/-- Two files below a place have one name in different directories. -/
def Namesakes (d : Disk) (tree : Place) : Prop :=
  ∃ above above' name, above ≠ above' ∧ d.HasFile (tree ++ (above ++ [name])) ∧
    d.HasFile (tree ++ (above' ++ [name]))

structure Repeats (d : Disk) (tree above : Place) (name : String) : Prop where
  held : d.HasFile (tree ++ (above ++ [name]))
  earlier : ∃ above', Before (above' ++ [name]) (above ++ [name]) ∧
    d.HasFile (tree ++ (above' ++ [name]))

/-- The name of the first file below a place that has the name of a file before it. -/
def FirstRepeat (d : Disk) (tree : Place) (name : String) : Prop :=
  ∃ above, d.Repeats tree above name ∧
    ∀ above' name', d.Repeats tree above' name' → ¬ Before (above' ++ [name']) (above ++ [name])

variable {d : Disk} {tree above p q r : Place} {name name' : String}

theorem before_iff : Before p q ↔ compare p q = .lt := compare_place.symm

theorem before_irrefl (p : Place) : ¬ Before p p := by
  simp [before_iff]

theorem Before.trans (first : Before p q) (second : Before q r) : Before p r :=
  before_iff.mpr (Std.TransCmp.lt_trans (before_iff.mp first) (before_iff.mp second))

theorem eq_of_not_before (one : ¬ Before p q) (two : ¬ Before q p) : p = q := by
  rw [before_iff] at one two
  cases order : compare p q with
  | lt => exact absurd order one
  | eq => exact Std.LawfulEqCmp.eq_of_compare order
  | gt => exact absurd (Std.OrientedCmp.gt_iff_lt.mp order) two

theorem FirstRepeat.namesakes (first : d.FirstRepeat tree name) : d.Namesakes tree := by
  obtain ⟨above, ⟨held, above', before, held'⟩, _⟩ := first
  refine ⟨above', above, name, ?_, held', held⟩
  rintro rfl
  exact before_irrefl _ before

theorem FirstRepeat.unique (one : d.FirstRepeat tree name) (two : d.FirstRepeat tree name') :
    name = name' := by
  obtain ⟨above, repeats, first⟩ := one
  obtain ⟨above', repeats', first'⟩ := two
  have same := eq_of_not_before (first' above name repeats) (first above' name' repeats')
  simpa using (List.append_inj' same rfl).2

/-! ### Finding them in a list -/

theorem mem_filesBelow_concat {bytes : ByteArray} : (above ++ [name], bytes) ∈ d.filesBelow tree ↔
    d.get? (tree ++ (above ++ [name])) = some (.file bytes) := by
  simp [mem_filesBelow]

theorem filesBelow_spelled (exportDir : String) {f : Place × ByteArray}
    (member : f ∈ d.filesBelow tree) :
    ∃ above name, f.1 = above ++ [name] ∧ entryName .flat exportDir f.1 = name ∧
      d.HasFile (tree ++ (above ++ [name])) := by
  obtain ⟨names, bytes⟩ := f
  obtain ⟨filled, held⟩ := mem_filesBelow.mp member
  obtain ⟨above, name, rfl⟩ := (List.eq_nil_or_concat' names).resolve_left filled
  exact ⟨above, name, rfl, entryName_flat exportDir above name, bytes, held⟩

theorem filesBelow_nodup (d : Disk) (tree : Place) : ((d.filesBelow tree).map Prod.fst).Nodup := by
  refine List.pairwise_map.mpr ((filesBelow_ascending d tree).imp ?_)
  rintro f g before same
  rw [same] at before
  simp at before

theorem flat_nodup (exportDir : String) :
    ((d.filesBelow tree).map fun f => entryName .flat exportDir f.1).Nodup ↔ ¬ d.Namesakes tree := by
  constructor
  · rintro distinct ⟨above, above', name, apart, ⟨bytes, held⟩, ⟨bytes', held'⟩⟩
    have same := List.inj_on_of_nodup_map distinct (mem_filesBelow_concat.mpr held)
      (mem_filesBelow_concat.mpr held') (by simp only [entryName_flat])
    exact apart (List.append_inj' (Prod.mk.inj same).1 rfl).1
  · intro alone
    refine List.Nodup.map_on ?_ (filesBelow_nodup d tree).of_map
    intro f member g member' same
    obtain ⟨above, name, spelled, named, held⟩ := filesBelow_spelled exportDir member
    obtain ⟨above', name', spelled', named', held'⟩ := filesBelow_spelled exportDir member'
    obtain rfl : name = name' := named.symm.trans (same.trans named')
    by_cases apart : above = above'
    · exact List.inj_on_of_nodup_map (filesBelow_nodup d tree) member member'
        (by rw [spelled, spelled', apart])
    · exact absurd ⟨above, above', name, apart, held, held'⟩ alone

end Disk

theorem firstRepeated_split {seen l : List String} {s : String} (found : firstRepeated seen l = some s) :
    ∃ before after, l = before ++ s :: after ∧ (s ∈ seen ∨ s ∈ before) ∧ before.Nodup ∧
      ∀ t ∈ before, t ∉ seen := by
  induction l generalizing seen with
  | nil => cases found
  | cons t r ih =>
    by_cases known : t ∈ seen
    · obtain rfl : t = s := by simpa [firstRepeated, known] using found
      exact ⟨[], r, rfl, .inl known, .nil, by simp⟩
    · have later : firstRepeated (t :: seen) r = some s := by simpa [firstRepeated, known] using found
      obtain ⟨before, after, rfl, twice, distinct, fresh⟩ := ih later
      simp only [List.mem_cons, not_or] at twice fresh
      refine ⟨t :: before, after, rfl, ?_, ?_, ?_⟩
      · simpa [or_comm, or_assoc, or_left_comm] using twice
      · exact List.nodup_cons.mpr ⟨fun member => (fresh t member).1 rfl, distinct⟩
      · exact List.forall_mem_cons.mpr ⟨known, fun u member => (fresh u member).2⟩

open Disk

section
variable {d : Disk} {tree : Place} {exportDir name : String}

theorem firstRepeat_of_found
    (found : firstRepeated [] ((d.filesBelow tree).map fun f => entryName .flat exportDir f.1) =
      some name) : d.FirstRepeat tree name := by
  obtain ⟨front, back, split, twice, distinct, _⟩ := firstRepeated_split found
  obtain ⟨before, rest, files, rfl, tail⟩ := List.map_eq_append_iff.mp split
  obtain ⟨f, after, rfl, named, rfl⟩ := List.map_eq_cons_iff.mp tail
  have ascending := filesBelow_ascending d tree
  rw [files, List.pairwise_append] at ascending
  obtain ⟨_, ends, across⟩ := ascending
  have member : f ∈ d.filesBelow tree := by simp [files]
  obtain ⟨above, last, spelled, named', held⟩ := filesBelow_spelled exportDir member
  obtain rfl : name = last := named.symm.trans named'
  -- a file that comes before the one that the walk stops at was passed by it
  have passed : ∀ g ∈ d.filesBelow tree, Before g.1 (above ++ [name]) → g ∈ before := by
    intro g listed early
    rw [files, List.mem_append, List.mem_cons] at listed
    rw [← spelled] at early
    rcases listed with passed | rfl | late
    · exact passed
    · exact absurd early (before_irrefl _)
    · have := before_iff.mpr ((List.pairwise_cons.mp ends).1 g late)
      exact absurd (early.trans this) (before_irrefl _)
  refine ⟨above, ⟨held, ?_⟩, ?_⟩
  · obtain ⟨g, passed, same⟩ := List.mem_map.mp (twice.resolve_left (by simp))
    have listed : g ∈ d.filesBelow tree := by simp [files, passed]
    obtain ⟨above', last, spelled', named'', held'⟩ := filesBelow_spelled exportDir listed
    obtain rfl : name = last := same.symm.trans named''
    exact ⟨above', before_iff.mpr (spelled ▸ spelled' ▸ across g passed f (by simp)), held'⟩
  · rintro above' name' ⟨⟨bytes, held'⟩, above'', earlier, bytes'', held''⟩ early
    have one := passed _ (mem_filesBelow_concat.mpr held') early
    have two := passed _ (mem_filesBelow_concat.mpr held'') (earlier.trans early)
    have same := List.inj_on_of_nodup_map distinct two one (by simp only [entryName_flat])
    rw [(Prod.mk.inj same).1] at earlier
    exact before_irrefl _ earlier

theorem firstRepeated_flat :
    firstRepeated [] ((d.filesBelow tree).map fun f => entryName .flat exportDir f.1) = some name ↔
      d.FirstRepeat tree name := by
  refine ⟨firstRepeat_of_found, fun first => ?_⟩
  cases found : firstRepeated [] ((d.filesBelow tree).map fun f => entryName .flat exportDir f.1) with
  | none =>
    have distinct := (flat_nodup exportDir).mp (firstRepeated_none.mp found).1
    exact absurd first.namesakes distinct
  | some name' => rw [(firstRepeat_of_found found).unique first]

theorem exists_firstRepeat : (∃ name, d.FirstRepeat tree name) ↔ d.Namesakes tree := by
  refine ⟨fun ⟨name, first⟩ => first.namesakes, fun namesakes => ?_⟩
  cases found : firstRepeated [] ((d.filesBelow tree).map fun f => entryName .flat "" f.1) with
  | none => exact absurd namesakes ((flat_nodup "").mp (firstRepeated_none.mp found).1)
  | some name => exact ⟨name, firstRepeat_of_found found⟩

/-! ### Relative names -/

theorem relative_inj {names names' : Place} (filled : names ≠ []) (filled' : names' ≠ [])
    (whole : ∀ s ∈ names, '/' ∉ s.toList) (whole' : ∀ s ∈ names', '/' ∉ s.toList)
    (same : entryName .relative exportDir names = entryName .relative exportDir names') :
    names = names' := by
  have base : ∀ s ∈ (fileName? exportDir).toList, '/' ∉ s.toList := by
    intro s member
    exact (fileName?_steps (Option.mem_toList.mp member)).1.whole
  have parts {l : Place} (filled : l ≠ []) (whole : ∀ s ∈ l, '/' ∉ s.toList) :
      segments (entryName .relative exportDir l) = (fileName? exportDir).toList ++ l :=
    segments_intercalate (by simp [filled]) fun s member =>
      (List.mem_append.mp member).elim (base s) (whole s)
  have spelled := congrArg segments same
  rw [parts filled whole, parts filled' whole'] at spelled
  exact List.append_cancel_left spelled

theorem relative_nodup (whole : ∀ names, d.HasFile (tree ++ names) → ∀ s ∈ names, '/' ∉ s.toList) :
    ((d.filesBelow tree).map fun f => entryName .relative exportDir f.1).Nodup := by
  have distinct : (((d.filesBelow tree).map Prod.fst).map (entryName .relative exportDir)).Nodup := by
    refine List.Nodup.map_on ?_ (filesBelow_nodup d tree)
    intro names member names' member' same
    obtain ⟨⟨_, bytes⟩, listed, rfl⟩ := List.mem_map.mp member
    obtain ⟨⟨_, bytes'⟩, listed', rfl⟩ := List.mem_map.mp member'
    obtain ⟨filled, held⟩ := mem_filesBelow.mp listed
    obtain ⟨filled', held'⟩ := mem_filesBelow.mp listed'
    exact relative_inj filled filled' (whole _ ⟨bytes, held⟩) (whole _ ⟨bytes', held'⟩) same
  simpa [Function.comp_def] using distinct

end

/-! ### Packing -/

section
variable {uuid workDir exportDir name : String} {naming : EntryNaming} {signer : Signer}
  {d d' opened : Disk} {tree : Place}

theorem innerEntries_duplicate (located : d.locate exportDir = .ok tree) :
    innerEntries d exportDir naming = .error (.duplicateEntry name) ↔
      firstRepeated [] ((d.filesBelow tree).map fun f => entryName naming exportDir f.1) =
        some name := by
  simp only [innerEntries, located, List.map_map, Function.comp_def]
  split
  · rename_i found
    simp [found]
  · rename_i found
    simp [found]

theorem opened_tree (located : d.locate exportDir = .ok tree) (isDir : d.isDirAt tree = true)
    (outside : ∀ W, d.Leads workDir W → ¬ tree <+: W)
    (opens : d.createFile (join workDir innerName) ByteArray.empty = .ok opened) :
    opened.locate exportDir = .ok tree ∧ opened.filesBelow tree = d.filesBelow tree := by
  have keeps := createFile_keeps opens
  obtain ⟨W, last, aims, _, free, rfl⟩ := createFile_ok opens
  obtain ⟨work, rfl⟩ := aims_join innerName_component aims
  exact ⟨keeps.locate located (stands_of_isDirAt (keeps.dirs tree isDir)),
    filesBelow_beside free isDir (outside W work)⟩

theorem package_of_entries_error {e : ExportError}
    (opens : d.createFile (join workDir innerName) ByteArray.empty = .ok opened)
    (stuck : innerEntries opened exportDir naming = .error e) :
    package uuid workDir exportDir naming signer d = (.error e, opened) := by
  simp [package, fillFile, opens, stuck, bind, Except.bind]

theorem encodeArchive_ne_duplicate {a : Zip.Archive} :
    encodeArchive a ≠ .error (.duplicateEntry name) := by
  unfold encodeArchive
  split <;> simp

/- A repeated name is only found among the entries, unless the signer answers with one. -/
theorem package_duplicate
    (failed : package uuid workDir exportDir naming signer d = (.error (.duplicateEntry name), d')) :
    ∃ opened, d.createFile (join workDir innerName) ByteArray.empty = .ok opened ∧
      (innerEntries opened exportDir naming = .error (.duplicateEntry name) ∨
        (∃ entries, innerEntries opened exportDir naming = .ok entries) ∧
          ∃ bytes, signer bytes = .error (.duplicateEntry name)) := by
  simp only [package] at failed
  split at failed
  · rename_i filled
    cases failed
    obtain ⟨_, _, io, _⟩ | ⟨opens, stuck⟩ := fillFile_error filled
    · cases io
    refine ⟨d', opens, .inl ?_⟩
    cases listed : innerEntries d' exportDir naming with
    | error e => simpa [listed, bind, Except.bind] using stuck
    | ok entries =>
      have refused : encodeArchive ⟨innerComment uuid, entries⟩ = .error (.duplicateEntry name) := by
        simpa [listed, bind, Except.bind] using stuck
      exact absurd refused encodeArchive_ne_duplicate
  rename_i inner mid filled
  obtain ⟨opened, opens, gathered, _⟩ := fillFile_ok filled
  obtain ⟨entries, listed, _⟩ := bind_ok.mp gathered
  refine ⟨opened, opens, .inr ⟨⟨entries, listed⟩, ?_⟩⟩
  split at failed
  · rename_i refused
    cases failed
    exact ⟨inner, refused⟩
  split at failed
  · rename_i outer
    cases failed
    obtain ⟨_, _, io, _⟩ | ⟨_, stuck⟩ := fillFile_error outer
    · cases io
    · exact absurd stuck encodeArchive_ne_duplicate
  · cases failed

theorem package_relative (located : d.locate exportDir = .ok tree) (isDir : d.isDirAt tree = true)
    (outside : ∀ W, d.Leads workDir W → ¬ tree <+: W)
    (whole : ∀ names, d.HasFile (tree ++ names) → ∀ s ∈ names, '/' ∉ s.toList)
    (failed : package uuid workDir exportDir .relative signer d =
      (.error (.duplicateEntry name), d')) :
    ∃ bytes, signer bytes = .error (.duplicateEntry name) := by
  obtain ⟨opened, opens, repeated | ⟨_, refused⟩⟩ := package_duplicate failed
  · obtain ⟨found, files⟩ := opened_tree located isDir outside opens
    rw [innerEntries_duplicate found, files,
      firstRepeated_none.mpr ⟨relative_nodup whole, fun _ _ => List.not_mem_nil⟩] at repeated
    cases repeated
  · exact refused

theorem innerEntries_flat (located : d.locate exportDir = .ok tree) (isDir : d.isDirAt tree = true)
    (outside : ∀ W, d.Leads workDir W → ¬ tree <+: W)
    (opens : d.createFile (join workDir innerName) ByteArray.empty = .ok opened)
    (first : d.FirstRepeat tree name) :
    innerEntries opened exportDir .flat = .error (.duplicateEntry name) := by
  obtain ⟨found, files⟩ := opened_tree located isDir outside opens
  rw [innerEntries_duplicate found, files]
  exact firstRepeated_flat.mpr first

theorem package_flat_duplicate (located : d.locate exportDir = .ok tree) (isDir : d.isDirAt tree = true)
    (outside : ∀ W, d.Leads workDir W → ¬ tree <+: W)
    (failed : package uuid workDir exportDir .flat signer d = (.error (.duplicateEntry name), d')) :
    d.FirstRepeat tree name ∨
      ¬ d.Namesakes tree ∧ ∃ bytes, signer bytes = .error (.duplicateEntry name) := by
  obtain ⟨opened, opens, repeated | ⟨⟨entries, listed⟩, refused⟩⟩ := package_duplicate failed
  all_goals obtain ⟨found, files⟩ := opened_tree located isDir outside opens
  · rw [innerEntries_duplicate found, files] at repeated
    exact .inl (firstRepeated_flat.mp repeated)
  · obtain ⟨place, found', rfl, distinct⟩ := innerEntries_ok listed
    obtain rfl := Except.ok.inj (found.symm.trans found')
    rw [files, List.map_map] at distinct
    exact .inr ⟨(flat_nodup exportDir).mp distinct, refused⟩

end
end SignedManifest
