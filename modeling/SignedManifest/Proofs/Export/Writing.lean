import SignedManifest.Export.Plan
import SignedManifest.Proofs.Disk.Operations

/-!
Writing below a directory. Paths that go down from it by components aim at places below it, so
whatever is made or written under them changes nothing elsewhere. A file that is written has its
content then, and the sibling that it went through is gone.
-/
namespace SignedManifest.Disk
open SignedManifest.Path

variable {d d' : Disk} {base : String} {B : Place}

/-! ### Paths that go down -/

theorem steps_pathBelow (base : String) {names : List String}
    (plain : ∀ s ∈ names, IsComponent s) :
    (stepsOf (pathBelow base names)).1 = (stepsOf base).1 ++ names := by
  induction names generalizing base with
  | nil => simp [pathBelow]
  | cons s r ih =>
    have c := plain s (by simp)
    have deeper := ih (join base s) fun t member => plain t (List.mem_cons_of_mem _ member)
    rw [stepsOf_join base (isAbsolute_component c), stepsOf_component c] at deeper
    simpa [pathBelow] using deeper

theorem start_pathBelow (d : Disk) (base : String) {names : List String}
    (plain : ∀ s ∈ names, IsComponent s) : d.start (pathBelow base names) = d.start base := by
  induction names generalizing base with
  | nil => rfl
  | cons s r ih =>
    have deeper := ih (join base s) fun t member => plain t (List.mem_cons_of_mem _ member)
    rwa [start_join d base (isAbsolute_component (plain s (by simp)))] at deeper

theorem pathBelow_concat (base : String) (names : List String) (s : String) :
    pathBelow base (names ++ [s]) = join (pathBelow base names) s := by
  simp [pathBelow]

theorem join_append (base : String) {s t : String} (c : IsComponent s) (c' : IsComponent (s ++ t)) :
    join base s ++ t = join base (s ++ t) := by
  simp only [join, isAbsolute_component c, isAbsolute_component c', Bool.false_eq_true, ↓reduceIte]
  split <;> simp [String.append_assoc]

theorem walk_below (leads : d.Leads base B) {names : List String} {q : Place}
    (plain : ∀ s ∈ names, IsComponent s)
    (went : d.walk (d.start base) ((stepsOf base).1 ++ names) = .ok q) : q = B ++ names := by
  obtain ⟨p, reached, down⟩ := walk_append_ok.mp went
  obtain rfl : p = B := Except.ok.inj (reached.symm.trans leads.1)
  exact walk_components plain down

theorem Aims.below {dir : Place} {name last : String} {names : List String}
    (leads : d.Leads base B) (plain : ∀ s ∈ names ++ [last], IsComponent s)
    (aims : d.Aims (pathBelow base (names ++ [last])) dir name) :
    dir = B ++ names ∧ name = last := by
  obtain ⟨before, steps, went⟩ := aims.way
  rw [steps_pathBelow base plain, ← List.append_assoc] at steps
  obtain ⟨rfl, same⟩ := List.append_inj' steps rfl
  rw [start_pathBelow d base plain] at went
  exact ⟨walk_below leads (fun s member => plain s (List.mem_append_left _ member)) went,
    by simpa using same.symm⟩

theorem Leads.of_join {p : Place} {s : String} (leads : d.Leads (join base s) p)
    (c : IsComponent s) : ∃ B, p = B ++ [s] ∧ d.Leads base B := by
  obtain ⟨went, _⟩ := leads
  rw [stepsOf_join base (isAbsolute_component c), stepsOf_component c,
    start_join d base (isAbsolute_component c)] at went
  obtain ⟨q, reached, down⟩ := walk_append_ok.mp went
  have stepped := walk_one.mp down
  exact ⟨q, (step_component c stepped).1, reached, (step_ok.mp stepped).1⟩

theorem Leads.join {s : String} (leads : d.Leads base B) (c : IsComponent s)
    (short : s.utf8ByteSize ≤ nameLimit) (dir : d.isDirAt (B ++ [s]) = true) :
    d.Leads (join base s) (B ++ [s]) := by
  refine ⟨?_, dir⟩
  have down : d.step B s = .ok (B ++ [s]) := step_ok.mpr
    ⟨leads.2, .inr (.inr ⟨c.here, c.above, short, stands_of_isDirAt dir, rfl⟩)⟩
  rw [stepsOf_join base (isAbsolute_component c), stepsOf_component c,
    start_join d base (isAbsolute_component c)]
  exact walk_append_ok.mpr ⟨B, leads.1, walk_one.mpr down⟩

theorem locate_below {p : Place} {s : String} (leads : d.Leads base B) (c : IsComponent s)
    (found : d.locate (join base s) = .ok p) : p = B ++ [s] ∧ d.Stands p := by
  simp only [Disk.locate, bind_ok, stepsOf_join base (isAbsolute_component c), stepsOf_component c,
    start_join d base (isAbsolute_component c), Bool.false_eq_true, ↓reduceIte] at found
  obtain ⟨_, _, went⟩ := found
  obtain ⟨q, reached, down⟩ := walk_append_ok.mp went
  obtain rfl := Except.ok.inj (reached.symm.trans leads.1)
  exact step_component c (walk_one.mp down)

/-! ### Making directories below -/

theorem Leads.isDirAt_onWay {p : Place} (leads : d.Leads base B) (onWay : d.OnWay base p) :
    d.isDirAt p = true := by
  obtain ⟨steps, ⟨rest, whole⟩, went⟩ := onWay
  have all := leads.1
  rw [← whole] at all
  obtain ⟨q, reached, on⟩ := walk_append_ok.mp all
  obtain rfl : p = q := Except.ok.inj (went.symm.trans reached)
  exact isDirAt_of_walk on leads.2

theorem Leads.onWay_kept {p : Place} (leads : d.Leads base B) (keeps : d.Keeps d')
    (onWay : d'.OnWay base p) : d.OnWay base p := by
  obtain ⟨steps, ⟨rest, whole⟩, went⟩ := onWay
  have all := leads.1
  rw [← whole] at all
  obtain ⟨q, reached, on⟩ := walk_append_ok.mp all
  have after := keeps.walk_dir reached (isDirAt_of_walk on leads.2)
  rw [← keeps.start base] at after
  obtain rfl : p = q := Except.ok.inj (went.symm.trans after)
  exact ⟨steps, ⟨rest, whole⟩, reached⟩

theorem MakesDirs.below {names : List String} (leads : d.Leads base B)
    (plain : ∀ s ∈ names, IsComponent s) (makes : d.MakesDirs (pathBelow base names) d') :
    ∀ p, d'.get? p = d.get? p ∨
      d.get? p = none ∧ d'.get? p = some .dir ∧ ∃ t, t ≠ [] ∧ t <+: names ∧ p = B ++ t := by
  intro p
  refine (makes.made p).imp_right fun ⟨free, dir, steps, first, went⟩ => ⟨free, dir, ?_⟩
  rw [steps_pathBelow base plain] at first
  rw [start_pathBelow d' base plain] at went
  have here : ¬ d'.OnWay base p := by
    intro onWay
    have before := leads.isDirAt_onWay (leads.onWay_kept makes.keeps onWay)
    rw [isDirAt_iff, free] at before
    cases before
  rcases List.prefix_or_prefix_of_prefix first (List.prefix_append (stepsOf base).1 names) with
    short | ⟨t, rfl⟩
  · exact absurd ⟨steps, short, went⟩ here
  · have inside := (List.prefix_append_right_inj _).mp first
    refine ⟨t, ?_, inside, walk_below (leads.kept makes.keeps)
      (fun s member => plain s (inside.mem member)) went⟩
    rintro rfl
    exact here ⟨_, List.prefix_rfl, by simpa using went⟩

/-! ### Writing one file -/

theorem writeThrough_keeps {r : Except ExportError Unit} {path : String} {bytes : ByteArray}
    (wrote : d.writeThrough path bytes = (r, d')) : d.Keeps d' := by
  rw [writeThrough_eq] at wrote
  split at wrote
  · cases wrote
    exact .refl d
  · rename_i created
    have keeps := createFile_keeps created
    split at wrote
    · cases wrote
      exact keeps
    · rename_i moved
      cases wrote
      exact keeps.trans (renameFile_keeps moved)

theorem writeExport_keeps {r : Except ExportError Unit} {path : String} {content : FileContent}
    (wrote : d.writeExport path content = (r, d')) : d.Keeps d' := by
  rw [writeExport_eq] at wrote
  split at wrote
  · exact writeThrough_keeps wrote
  · rename_i dir found
    have made := (makeDirAll_makes d dir).keeps
    split at wrote
    · rename_i same
      cases wrote
      simpa only [same] using made
    · rename_i same
      rw [same] at made
      exact made.trans (writeThrough_keeps wrote)

theorem sibling_component {s : String} (c : IsComponent s) : IsComponent (s ++ ".tmp") :=
  isComponent_of_mem (x := 't') (by simp) (by decide) (by simp [c.whole])

theorem siblingOf_pathBelow (base : String) (names : List String) {last : String}
    (c : IsComponent last) :
    siblingOf (pathBelow base (names ++ [last])) = pathBelow base (names ++ [last ++ ".tmp"]) := by
  rw [siblingOf, pathBelow_concat, pathBelow_concat, join_append _ c (sibling_component c)]

/-- What writing a file does besides making its directory: only the file and its sibling change, and
on success the file has its content and the sibling is gone. -/
structure Writes (d : Disk) (place sibling : Place) (bytes : ByteArray) (succeeds : Prop)
    (d' : Disk) : Prop where
  others : ∀ p, p ≠ place → p ≠ sibling → d'.get? p = d.get? p
  written : succeeds → d'.get? place = some (.file bytes)
  moved : succeeds → d'.get? sibling = none

theorem writeThrough_writes {r : Except ExportError Unit} {names : List String} {last : String}
    {bytes : ByteArray} (leads : d.Leads base B) (plain : ∀ s ∈ names ++ [last], IsComponent s)
    (wrote : d.writeThrough (pathBelow base (names ++ [last])) bytes = (r, d')) :
    d.Writes (B ++ (names ++ [last])) (B ++ (names ++ [last ++ ".tmp"])) bytes (r = .ok ()) d' := by
  have c : IsComponent last := plain last (by simp)
  have sibling : ∀ s ∈ names ++ [last ++ ".tmp"], IsComponent s := by
    intro s member
    rcases List.mem_append.mp member with member | member
    · exact plain s (List.mem_append_left _ member)
    · rw [List.mem_singleton.mp member]
      exact sibling_component c
  rw [writeThrough_eq] at wrote
  rw [siblingOf_pathBelow base names c] at wrote
  split at wrote
  · cases wrote
    exact ⟨fun _ _ _ => rfl, nofun, nofun⟩
  rename_i created create
  have keeps := createFile_keeps create
  obtain ⟨dir, name, aims, slash, free, rfl⟩ := createFile_ok create
  obtain ⟨rfl, rfl⟩ := aims.below leads sibling
  split at wrote
  · cases wrote
    refine ⟨fun p _ other => ?_, nofun, nofun⟩
    rw [get?_put d (by simp), if_neg (by simpa using other)]
  rename_i after move
  cases wrote
  obtain ⟨old, held, dir, file, found, there, aims', _, _, rfl⟩ := renameFile_ok move
  obtain ⟨rfl, rfl⟩ := aims'.below (leads.kept keeps) plain
  -- what is moved is the sibling just made
  have stands : (d.put (B ++ names ++ [file ++ ".tmp"]) (.file bytes)).Stands
      (B ++ names ++ [file ++ ".tmp"]) := ⟨.file bytes, by simp [get?_put d], by simp⟩
  obtain rfl := Except.ok.inj (found.symm.trans ((aims.kept keeps).locate slash stands))
  obtain rfl : bytes = held := by simpa [get?_put d] using there
  simp only [← List.append_assoc]
  have apart : B ++ names ++ [file ++ ".tmp"] ≠ B ++ names ++ [file] := by simp
  refine ⟨fun p here other => ?_, fun _ => ?_, fun _ => ?_⟩
  · rw [get?_put _ (by simp), if_neg here, get?_remove _ (by simp), if_neg other,
      get?_put d (by simp), if_neg other]
  · rw [get?_put _ (by simp), if_pos rfl]
  · rw [get?_put _ (by simp), if_neg apart, get?_remove _ (by simp), if_pos rfl]

/-- What writing an export file does: on its way down directories are made where nothing stood, and
beyond that it is the writing of one file. -/
structure Exports (d : Disk) (B names : Place) (last : String) (bytes : ByteArray)
    (succeeds : Prop) (d' : Disk) : Prop where
  keeps : d.Keeps d'
  others : ∀ p, p ≠ B ++ (names ++ [last]) → p ≠ B ++ (names ++ [last ++ ".tmp"]) →
    d'.get? p = d.get? p ∨
      d.get? p = none ∧ d'.get? p = some .dir ∧
        ∃ t, t ≠ [] ∧ t <+: names ++ [last] ∧ p = B ++ t
  written : succeeds → d'.get? (B ++ (names ++ [last])) = some (.file bytes)
  moved : succeeds → d'.get? (B ++ (names ++ [last ++ ".tmp"])) = none

theorem writeExport_exports {r : Except ExportError Unit} {names : List String} {last : String}
    {content : FileContent} (leads : d.Leads base B)
    (plain : ∀ s ∈ names ++ [last], IsComponent s)
    (wrote : d.writeExport (pathBelow base (names ++ [last])) content = (r, d')) :
    d.Exports B names last content.bytes (r = .ok ()) d' := by
  have keeps := writeExport_keeps wrote
  rw [writeExport_eq] at wrote
  split at wrote
  · have writes := writeThrough_writes leads plain wrote
    exact ⟨keeps, fun p here other => .inl (writes.others p here other), writes.written,
      writes.moved⟩
  rename_i dir found
  have makes := (makeDirAll_makes d dir).above found
  split at wrote
  · rename_i made same
    cases wrote
    rw [same] at makes
    exact ⟨keeps, fun p _ _ => makes.below leads plain p, nofun, nofun⟩
  · rename_i made same
    rw [same] at makes
    have writes := writeThrough_writes (leads.kept makes.keeps) plain wrote
    refine ⟨keeps, fun p here other => ?_, writes.written, writes.moved⟩
    rw [writes.others p here other]
    exact makes.below leads plain p

/-! ### Work inside a directory -/

/-- Nothing is changed outside a directory, and no directory goes away. -/
structure WorksIn (d : Disk) (T : Place) (d' : Disk) : Prop where
  keeps : d.Keeps d'
  outside : ∀ p, ¬ T <+: p → d'.get? p = d.get? p

theorem WorksIn.refl (d : Disk) (T : Place) : d.WorksIn T d := ⟨.refl d, fun _ _ => rfl⟩

theorem WorksIn.trans {a b c : Disk} {T : Place} (first : a.WorksIn T b)
    (second : b.WorksIn T c) : a.WorksIn T c :=
  ⟨first.keeps.trans second.keeps, fun p out =>
    (second.outside p out).trans (first.outside p out)⟩

theorem WorksIn.wider {T : Place} (works : d.WorksIn (B ++ T) d') : d.WorksIn B d' :=
  ⟨works.keeps, fun p out => works.outside p fun inside =>
    out ((List.prefix_append B T).trans inside)⟩

theorem Exports.worksIn {top last : String} {names : Place} {bytes : ByteArray} {succeeds : Prop}
    (exports : d.Exports B (top :: names) last bytes succeeds d') :
    d.WorksIn (B ++ [top]) d' where
  keeps := exports.keeps
  outside p out := by
    have apart : ∀ t, p ≠ B ++ (top :: t) := by
      rintro t rfl
      exact out ⟨t, by simp⟩
    rcases exports.others p (apart _) (apart _) with same | ⟨_, _, t, some, first, rfl⟩
    · exact same
    · cases t with
      | nil => exact absurd rfl some
      | cons s t =>
        obtain ⟨rfl, _⟩ := List.cons_prefix_cons.mp first
        exact absurd rfl (apart t)

end SignedManifest.Disk
