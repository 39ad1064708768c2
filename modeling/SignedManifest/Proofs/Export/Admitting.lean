import SignedManifest.Proofs.Export.Failing

/-!
Writes that go through. In a place where nothing is in the way a file is written exactly if its path and
the names in it are short enough, so whether a write goes through is known beforehand.
-/
namespace SignedManifest
open SignedManifest.Path

namespace Path

theorem intercalate_segments (path : String) : "/".intercalate (segments path) = path := by
  suffices chars : ∀ l : List Char,
      "/".intercalate ((splitChars l).map String.ofList) = String.ofList l by
    rw [segments, chars, String.ofList_toList]
  intro l
  induction l with
  | nil => rfl
  | cons c r ih =>
    obtain ⟨s, t, split⟩ := List.exists_cons_of_ne_nil (splitChars_ne_nil r)
    rw [split] at ih
    by_cases slash : c = '/'
    · simp only [splitChars, slash, ↓reduceIte, split, List.map_cons, String.intercalate_cons_cons]
      rw [← List.map_cons, ih]
      exact String.toList_inj.mp (by simp)
    · simp only [splitChars, slash, ↓reduceIte, split]
      cases t with
      | nil =>
        have whole : String.ofList s = String.ofList r := by simpa using ih
        refine String.toList_inj.mp ?_
        simpa using String.ofList_injective whole
      | cons u v =>
        simp only [List.map_cons, String.intercalate_cons_cons] at ih ⊢
        refine String.toList_inj.mp ?_
        have chars := congrArg String.toList ih
        simpa using chars

theorem segments_join_component (base : String) {s : String} (c : IsComponent s) :
    ∃ before, segments (join base s) = before ++ [s] := by
  obtain ⟨before, parts⟩ := segments_join base s
  exact ⟨before, by rw [parts, segments_whole c.whole]⟩

theorem parent?_join (base : String) {a b : String} (c : IsComponent a) (c' : IsComponent b) :
    parent? (join (join base a) b) = some (join base a) := by
  obtain ⟨before, parts⟩ := segments_join_component base c
  have filled : join base a ≠ "" := by
    intro none
    have alone : [] ++ [""] = before ++ [a] := by
      rw [← parts, none]
      rfl
    exact c.filled (by simpa using (List.append_inj' alone rfl).2.symm)
  have joined : segments (join (join base a) b) = before ++ [a] ++ [b] := by
    obtain ⟨q, spelled, same | closed⟩ := join_eq (isAbsolute_component c') filled
    · rw [spelled, segments_slash, ← same, parts, segments_whole c'.whole]
    · have ends := parts
      rw [closed, segments_closed] at ends
      exact absurd (by simpa using (List.append_inj' ends rfl).2.symm) c.filled
  unfold parent?
  rw [joined, dropBlankEnd_closed c']
  split
  · rename_i none
    simp at none
  · rename_i single
    simpa using congrArg List.length single
  · rename_i single
    simpa using congrArg List.length single
  · rw [List.dropLast_concat, dropBlankEnd_closed c]
    split
    · rename_i single
      have alone : before ++ [a] = [] ++ [""] := single
      exact absurd (by simpa using (List.append_inj' alone rfl).2) c.filled
    · rw [← parts, intercalate_segments]

theorem join_starts (base : String) {s : String} (c : IsComponent s) :
    ∃ t, join base s = base ++ t := by
  unfold join
  rw [isAbsolute_component c, if_neg Bool.false_ne_true]
  split
  · exact ⟨s, rfl⟩
  · exact ⟨"/" ++ s, String.append_assoc ..⟩

end Path

namespace Disk
variable {d d' : Disk} {base last : String} {B names : Place}

/-! ### Directories -/

/-- Nothing but directories stands on the way from a place. -/
def Open (d : Disk) (B names : Place) : Prop :=
  ∀ t, t ≠ [] → t <+: names → d.get? (B ++ t) = none ∨ d.get? (B ++ t) = some .dir

theorem Open.start {more : Place} (open' : d.Open B (names ++ more)) : d.Open B names :=
  fun t some inside => open' t some (inside.trans (List.prefix_append names more))

theorem walk_open (dir : d.isDirAt B = true) (plain : ∀ s ∈ names, IsComponent s)
    (short : ∀ s ∈ names, s.utf8ByteSize ≤ nameLimit) (free : d.Open B names) :
    d.walk B names = .ok (B ++ names) ∧ d.isDirAt (B ++ names) = true ∨
      d.walk B names = .error .noEntry := by
  induction names generalizing B with
  | nil => exact .inl ⟨by simp [walk], by simpa using dir⟩
  | cons s r ih =>
    have c := plain s (by simp)
    have small := short s (by simp)
    rcases free [s] (by simp) (by simp) with missing | stands
    · refine .inr ?_
      simp [walk, step, dir, c.here, c.above, Nat.not_lt.mpr small, missing]
    · have down := isDirAt_iff.mpr stands
      have stepped : d.step B s = .ok (B ++ [s]) := step_ok.mpr
        ⟨dir, .inr (.inr ⟨c.here, c.above, small, stands_of_isDirAt down, rfl⟩)⟩
      have rest := ih down (fun t member => plain t (List.mem_cons_of_mem _ member))
        (fun t member => short t (List.mem_cons_of_mem _ member)) fun t _ inside => by
          simpa using free (s :: t) (by simp) (by simpa [List.cons_prefix_cons] using inside)
      simpa [walk, stepped] using rest

theorem walk_short {p : Place} (plain : ∀ s ∈ names, IsComponent s) (went : d.walk B names = .ok p) :
    ∀ s ∈ names, s.utf8ByteSize ≤ nameLimit := by
  induction names generalizing B with
  | nil => simp
  | cons s r ih =>
    have c := plain s (by simp)
    obtain ⟨next, stepped, went⟩ := walk_cons_ok.mp went
    exact List.forall_mem_cons.mpr ⟨short_of_step c stepped,
      ih (fun t member => plain t (List.mem_cons_of_mem _ member)) went⟩

theorem target_concat {steps : Place} {path s : String} (spelled : (stepsOf path).1 = steps ++ [s])
    (allowed : checkPath path = .ok ()) : d.target path = (do
      let dir ← d.walk (d.start path) steps
      if !d.isDirAt dir then throw .notDirectory
      return some (dir, s)) := by
  simp only [Disk.target, allowed, spelled, List.getLast?_concat, List.dropLast_concat]
  rfl

theorem makeDir_missing {steps : Place} {path s : String} (spelled : (stepsOf path).1 = steps ++ [s])
    (allowed : checkPath path = .ok ()) (broken : d.walk (d.start path) steps = .error .noEntry) :
    d.makeDir path = .error .noEntry := by
  rw [makeDir, target_concat spelled allowed, broken]
  rfl

def Enters (d : Disk) (path : String) (d' : Disk) : Prop :=
  d.makeDir path = .ok d' ∨ d.makeDir path = .error .occupied ∧ d.isDir path = true ∧ d' = d

theorem Enters.makeDirs {path : String} (filled : path ≠ "") (enters : d.Enters path d') (n : Nat) :
    d.makeDirs path (n + 1) = (.ok (), d') := by
  rcases enters with made | ⟨occupied, isDir, rfl⟩
  · simp [Disk.makeDirs, FileSystem.makeDirs, filled, made]
  · simp [Disk.makeDirs, FileSystem.makeDirs, filled, occupied, isDir]

theorem Enters.makeDirs_above {path above : String} {mid : Disk} {n : Nat} (filled : path ≠ "")
    (missing : d.makeDir path = .error .noEntry) (parent : parent? path = some above)
    (made : d.makeDirs above n = (.ok (), mid)) (enters : mid.Enters path d') :
    d.makeDirs path (n + 1) = (.ok (), d') := by
  rw [Disk.makeDirs] at made
  rcases enters with made' | ⟨occupied, isDir, rfl⟩
  · simp [Disk.makeDirs, FileSystem.makeDirs, filled, missing, parent, made, made']
  · simp [Disk.makeDirs, FileSystem.makeDirs, filled, missing, parent, made, occupied, isDir]

theorem aims_under {above s : String} {P : Place} (leads : d.Leads above P) (c : IsComponent s)
    (allowed : checkPath (join above s) = .ok ()) (short : s.utf8ByteSize ≤ nameLimit) :
    d.Aims (join above s) P s := by
  refine ⟨allowed, ⟨(stepsOf above).1, ?_, ?_⟩, leads.2, c, short⟩
  · rw [stepsOf_join above (isAbsolute_component c), stepsOf_component c]
  · rw [start_join d above (isAbsolute_component c)]
    exact leads.1

theorem enters_under {above s : String} {P : Place} (leads : d.Leads above P) (c : IsComponent s)
    (allowed : checkPath (join above s) = .ok ()) (short : s.utf8ByteSize ≤ nameLimit)
    (free : d.get? (P ++ [s]) = none ∨ d.get? (P ++ [s]) = some .dir) :
    ∃ d', d.Enters (join above s) d' ∧ d'.Leads (join above s) (P ++ [s]) := by
  have aims := aims_under leads c allowed short
  rcases free with missing | stands
  · have made : d.makeDir (join above s) = .ok (d.put (P ++ [s]) .dir) := by
      simp only [makeDir, bind_ok]
      refine ⟨_, aims.target, ?_⟩
      simp only [unless_ok]
      exact ⟨by simp [c.here, c.above], Nat.not_lt.mpr short, by simp [missing], rfl⟩
    have keeps := put_dir_keeps d (p := P ++ [s]) (by simp)
    refine ⟨_, .inl made, (leads.kept keeps).join c short ?_⟩
    simp [isDirAt_iff, get?_put d]
  · have dir := isDirAt_iff.mpr stands
    have occupied : d.makeDir (join above s) = .error .occupied := by
      rw [makeDir, aims.target]
      simp [bind, Except.bind, c.here, c.above, Nat.not_lt.mpr short, stands, throw, throwThe,
        MonadExceptOf.throw]
    have found := aims.locate (by rw [stepsOf_join above (isAbsolute_component c), stepsOf_component c])
      (stands_of_isDirAt dir)
    exact ⟨d, .inr ⟨occupied, by simp [isDir, found, dir], rfl⟩, leads.join c short dir⟩

theorem Leads.below (leads : d.Leads base B) (plain : ∀ s ∈ names, IsComponent s)
    (went : d.walk B names = .ok (B ++ names)) (dir : d.isDirAt (B ++ names) = true) :
    d.Leads (pathBelow base names) (B ++ names) := by
  refine ⟨?_, dir⟩
  rw [steps_pathBelow base plain, start_pathBelow d base plain]
  exact walk_append_ok.mpr ⟨B, leads.1, went⟩

/- The induction is on the fuel, and follows the directories up to one that is there. -/
theorem makeDirs_below {s : String} (leads : d.Leads base B)
    (plain : ∀ t ∈ names ++ [s], IsComponent t)
    (short : ∀ t ∈ names ++ [s], t.utf8ByteSize ≤ nameLimit)
    (allowed : checkPath (pathBelow base (names ++ [s])) = .ok ()) (free : d.Open B (names ++ [s]))
    {n : Nat} (enough : names.length < n) :
    ∃ d', d.makeDirs (pathBelow base (names ++ [s])) n = (.ok (), d') ∧
      d'.Leads (pathBelow base (names ++ [s])) (B ++ (names ++ [s])) := by
  induction n generalizing names s with
  | zero => omega
  | succ n ih =>
    have c := plain s (by simp)
    have small := short s (by simp)
    have plainAbove : ∀ t ∈ names, IsComponent t := fun t member =>
      plain t (List.mem_append_left _ member)
    have shortAbove : ∀ t ∈ names, t.utf8ByteSize ≤ nameLimit := fun t member =>
      short t (List.mem_append_left _ member)
    have last := free (names ++ [s]) (by simp) List.prefix_rfl
    have filled := pathBelow_ne_empty base plain
    rcases walk_open leads.2 plainAbove shortAbove free.start with ⟨went, dir⟩ | broken
    · rw [pathBelow_concat] at allowed filled ⊢
      rw [← List.append_assoc] at last ⊢
      obtain ⟨d', enters, there⟩ :=
        enters_under (leads.below plainAbove went dir) c allowed small last
      exact ⟨d', enters.makeDirs filled n, there⟩
    · obtain ⟨init, a, rfl⟩ := (List.eq_nil_or_concat' names).resolve_left (by
        rintro rfl
        cases broken)
      have way : (stepsOf (pathBelow base (init ++ [a] ++ [s]))).1 =
          (stepsOf base).1 ++ (init ++ [a]) ++ [s] := by
        rw [steps_pathBelow base plain, ← List.append_assoc]
      have unmade : d.walk (d.start (pathBelow base (init ++ [a] ++ [s])))
          ((stepsOf base).1 ++ (init ++ [a])) = .error .noEntry := by
        rw [start_pathBelow d base plain, walk_append, leads.1]
        exact broken
      have missing := makeDir_missing way allowed unmade
      have allowedAbove : checkPath (pathBelow base (init ++ [a])) = .ok () := by
        obtain ⟨t, starts⟩ := join_starts (pathBelow base (init ++ [a])) c
        rw [pathBelow_concat, starts] at allowed
        exact checkPath_start (pathBelow_ne_empty base plainAbove) allowed
      have parent : parent? (pathBelow base (init ++ [a] ++ [s])) =
          some (pathBelow base (init ++ [a])) := by
        rw [pathBelow_concat, pathBelow_concat base init a]
        exact parent?_join _ (plainAbove a (by simp)) c
      obtain ⟨mid, made, above⟩ := ih plainAbove shortAbove allowedAbove free.start (by simpa using enough)
      have makes := makeDirs_makes d (pathBelow base (init ++ [a])) n
      rw [made] at makes
      have free' : mid.get? (B ++ (init ++ [a] ++ [s])) = none ∨
          mid.get? (B ++ (init ++ [a] ++ [s])) = some .dir := by
        rcases makes.below leads plainAbove (B ++ (init ++ [a] ++ [s])) with same | ⟨_, dir, _⟩
        · rwa [same]
        · exact .inr dir
      rw [pathBelow_concat] at filled missing parent allowed ⊢
      rw [← List.append_assoc] at free' ⊢
      obtain ⟨d', enters, there⟩ := enters_under above c allowed small free'
      exact ⟨d', enters.makeDirs_above filled missing parent made, there⟩

theorem makeDirAll_below {s : String} (leads : d.Leads base B)
    (plain : ∀ t ∈ names ++ [s], IsComponent t)
    (short : ∀ t ∈ names ++ [s], t.utf8ByteSize ≤ nameLimit)
    (allowed : checkPath (pathBelow base (names ++ [s])) = .ok ()) (free : d.Open B (names ++ [s])) :
    ∃ d', d.makeDirAll (pathBelow base (names ++ [s])) = (.ok (), d') ∧
      d'.Leads (pathBelow base (names ++ [s])) (B ++ (names ++ [s])) := by
  refine makeDirs_below leads plain short allowed free ?_
  have steps := congrArg List.length (steps_pathBelow base plain)
  have parts : (stepsOf (pathBelow base (names ++ [s]))).1.length ≤
      (segments (pathBelow base (names ++ [s]))).length := List.length_filter_le _ _
  simp only [List.length_append, List.length_singleton] at steps
  omega

/-! ### Files -/

/-- The file system takes the path of a file below a directory and that of its sibling. -/
structure Admits (base : String) (names : Place) (last : String) : Prop where
  allowed : checkPath (siblingOf (pathBelow base (names ++ [last]))) = .ok ()
  short : ∀ s ∈ names ++ [last ++ ".tmp"], s.utf8ByteSize ≤ nameLimit

theorem writeExport_admits {top : String} {content : FileContent}
    (plain : ∀ s ∈ names ++ [top] ++ [last], IsComponent s)
    (wrote : d.writeExport (pathBelow base (names ++ [top] ++ [last])) content = (.ok (), d')) :
    Admits base (names ++ [top]) last := by
  have c : IsComponent last := plain last (by simp)
  have above : ∀ s ∈ names ++ [top], IsComponent s := fun s member =>
    plain s (List.mem_append_left _ member)
  have through : ∃ mid, d.Keeps mid ∧
      mid.writeThrough (pathBelow base (names ++ [top] ++ [last])) content.bytes = (.ok (), d') := by
    rw [writeExport_eq] at wrote
    split at wrote
    · exact ⟨d, .refl d, wrote⟩
    · rename_i dir _
      have makes := makeDirAll_makes d dir
      split at wrote
      · cases wrote
      · rename_i mid same
        rw [same] at makes
        exact ⟨mid, makes.keeps, wrote⟩
  obtain ⟨mid, keeps, through⟩ := through
  rw [writeThrough_eq] at through
  split at through
  · cases through
  rename_i create
  obtain ⟨dir, name, aims, _, _, _⟩ := createFile_ok create
  obtain ⟨target, rfl⟩ := aims.ofSibling plain
  obtain ⟨before, spelled, went⟩ := target.way
  rw [steps_pathBelow base plain, ← List.append_assoc] at spelled
  obtain ⟨rfl, _⟩ := List.append_inj' spelled rfl
  rw [start_pathBelow mid base plain] at went
  obtain ⟨p, reached, down⟩ := walk_append_ok.mp went
  refine ⟨aims.allowed, fun s member => ?_⟩
  rcases List.mem_append.mp member with member | member
  · exact walk_short above down s member
  · rw [List.mem_singleton.mp member]
    exact aims.short

theorem writeExport_of_admits {content : FileContent} (filled : names ≠ []) (leads : d.Leads base B)
    (plain : ∀ s ∈ names ++ [last], IsComponent s) (free : d.Open B names)
    (target : d.isDirAt (B ++ (names ++ [last])) = false)
    (sibling : d.isDirAt (B ++ (names ++ [last ++ ".tmp"])) = false) (admits : Admits base names last) :
    ∃ d', d.writeExport (pathBelow base (names ++ [last])) content = (.ok (), d') := by
  obtain ⟨init, a, rfl⟩ := (List.eq_nil_or_concat' names).resolve_left filled
  have c : IsComponent last := plain last (by simp)
  have above : ∀ s ∈ init ++ [a], IsComponent s := fun s member =>
    plain s (List.mem_append_left _ member)
  have parent : parent? (pathBelow base (init ++ [a] ++ [last])) = some (pathBelow base (init ++ [a])) := by
    rw [pathBelow_concat, pathBelow_concat base init a]
    exact parent?_join _ (above a (by simp)) c
  have spelled := siblingOf_pathBelow base (init ++ [a]) c
  have allowed := admits.allowed
  rw [spelled, pathBelow_concat] at allowed
  obtain ⟨more, starts⟩ := join_starts (pathBelow base (init ++ [a])) (sibling_component c)
  obtain ⟨mid, made, there⟩ := makeDirAll_below leads above
    (fun s member => admits.short s (List.mem_append_left _ member))
    (checkPath_start (pathBelow_ne_empty base above) (starts ▸ allowed)) free
  have makes := makeDirAll_makes d (pathBelow base (init ++ [a]))
  rw [made] at makes
  have aims := aims_under there (sibling_component c) allowed (admits.short _ (by simp))
  rw [← pathBelow_concat] at aims
  have free' : mid.isDirAt (B ++ (init ++ [a]) ++ [last ++ ".tmp"]) = false := by
    rwa [List.append_assoc, isDirAt, makes.beyond leads above, ← isDirAt]
  have create := createFile_of_aims aims (openEnded_pathBelow (sibling_component c)) free' content.bytes
  have target' : mid.isDirAt (B ++ (init ++ [a] ++ [last])) = false := by
    rwa [isDirAt, makes.beyond leads above, ← isDirAt]
  rw [← spelled] at create
  obtain ⟨d', through⟩ := writeThrough_of_create plain (leads.kept makes.keeps) target' create
  exact ⟨d', by simp only [writeExport_eq, parent, made, through]⟩

end Disk
end SignedManifest
