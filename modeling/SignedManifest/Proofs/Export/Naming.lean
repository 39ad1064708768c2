import SignedManifest.Proofs.Export.Failures
import SignedManifest.Proofs.Export.Replacing

/-!
Names that records give to their files. An attribute is taken for a name if it is one component and
nothing else, and then its file is directly in the directory of its kind, apart from all other files and
their siblings. So whatever strings a record holds, a step puts no file outside of the tree or deeper in
it, not even while it writes and when it fails.
-/
namespace SignedManifest
open SignedManifest.Path Disk

/-! ### Paths of records -/

section
variable {dir dir' stem stem' extension extension' path path' : String}

theorem recordPath_ok : recordPath dir stem extension = .ok path ↔
    isPlainName stem = true ∧ path = join dir (stem ++ "." ++ extension) := by
  unfold recordPath
  split
  · rename_i plain
    simp [plain, eq_comm]
  · rename_i spoilt
    simp [spoilt]

theorem Action.record_run (root : String) (content : FileContent) (d : Disk) :
    (Action.record dir stem extension content).run root d =
      match recordPath (join root dir) stem extension with
      | .ok path => d.writeExport path content
      | .error e => (.error e, d) := by
  unfold Action.record recordPath
  split <;> rfl

theorem recordPath_components (known : IsExtension extension)
    (made : recordPath dir stem extension = .ok path) :
    components path = ((components dir).1, (components dir).2 ++ [stem ++ "." ++ extension]) := by
  obtain ⟨plain, rfl⟩ := recordPath_ok.mp made
  exact components_join dir (record_component (isComponent_of_plain plain) known)

theorem recordName_inj (known : IsExtension extension) (known' : IsExtension extension')
    (same : stem ++ "." ++ extension = stem' ++ "." ++ extension') :
    stem = stem' ∧ extension = extension' := by
  have ends := congrArg (fun s => s.toList.getLast?) same
  cases known <;> cases known'
  · exact ⟨by simpa [String.append_assoc] using same, rfl⟩
  · simp at ends
  · simp at ends
  · exact ⟨by simpa [String.append_assoc] using same, rfl⟩

theorem same_iff : same path path' = true ↔ components path = components path' := beq_iff_eq

theorem recordPath_inj (known : IsExtension extension) (known' : IsExtension extension')
    (made : recordPath dir stem extension = .ok path)
    (made' : recordPath dir' stem' extension' = .ok path') (same : same path path' = true) :
    Path.same dir dir' = true ∧ stem = stem' ∧ extension = extension' := by
  rw [same_iff, recordPath_components known made, recordPath_components known' made',
    Prod.mk.injEq] at same
  obtain ⟨start, names⟩ := same
  obtain ⟨above, last⟩ := List.append_inj' names rfl
  exact ⟨same_iff.mpr (Prod.ext start above), recordName_inj known known' (List.cons.inj last).1⟩

theorem recordPath_ne_sibling (known : IsExtension extension) (known' : IsExtension extension')
    (made : recordPath dir stem extension = .ok path)
    (made' : recordPath dir' stem' extension' = .ok path') : same path (siblingOf path') = false := by
  rw [Bool.eq_false_iff, Ne, same_iff, recordPath_components known made]
  obtain ⟨plain, rfl⟩ := recordPath_ok.mp made'
  have c := record_component (isComponent_of_plain plain) known'
  rw [siblingOf, join_append dir' c (sibling_component c), components_join dir' (sibling_component c)]
  intro same
  obtain ⟨_, last⟩ := List.append_inj' (Prod.mk.inj same).2 rfl
  obtain ⟨x, ends, other⟩ := known.ends stem
  exact ne_sibling ends other (List.cons.inj last).1

end

/-! ### Places of files -/

inductive IsExportFile : Place → Prop where
  | top {name : String} (known : name = "meta.json" ∨ name = "consumer.json") : IsExportFile [name]
  | inside {dir name : String} (known : dir ∈ Roster.folders) (c : IsComponent name) :
      IsExportFile [dir, name]

def IsExportPlace (T p : Place) : Prop :=
  ∃ above name, IsExportFile (above ++ [name]) ∧
    (p = T ++ (above ++ [name]) ∨ p = T ++ (above ++ [name ++ ".tmp"]))

namespace Plan

theorem Records.exportFiles {dir : String} (known : dir ∈ Roster.folders) {plan : Plan}
    (records : plan.Records dir) : plan.Fits IsExportFile := by
  intro a member names filled
  cases records a member with
  | @record stem extension content ext =>
    unfold Action.record at filled
    split at filled
    · rename_i plain
      cases filled
      exact .inside known (record_component (isComponent_of_plain plain) ext)
    · cases filled
  | fail e => cases filled

theorem rulesPlan_exportFiles (rules : Rules) (legacy : LegacyRules) :
    (Roster.rulesPlan rules legacy).Fits IsExportFile := by
  intro a member names filled
  simp only [Roster.rulesPlan, List.mem_cons, List.not_mem_nil, or_false] at member
  rcases member with rfl | rfl
  · cases filled
    exact .inside (by decide) (by constructor <;> decide)
  · cases legacy
    all_goals
      cases filled
      exact .inside (by decide) (by constructor <;> decide)

end Plan

/-! ### Files on the way -/

/-- The disks that an action can leave: the one on which it ends, well or not, and those on which the
write of its file's sibling breaks off. -/
inductive Action.Passes (root : String) (d : Disk) : Action → Disk → Prop where
  | broken {names : List String} {content : FileContent} (fault : Fault) :
      Passes root d (.write names content)
        (d.writeExportUnder (some fault) (pathBelow root names) content).2
  | copied {source text : String} {names : List String} {e : Disk}
      (read : d.contentText source = .ok text)
      (passes : Passes root d (.write names (.text [text])) e) :
      Passes root d (.copy source names) e
  | ended {a : Action} : Passes root d a (a.run root d).2

/-- The disks that a plan can leave: the one that it starts on, those of its first action, and if that
goes through, those of the actions after it. -/
inductive Plan.Passes (root : String) : Disk → Plan → Disk → Prop where
  | start {d : Disk} {plan : Plan} : Passes root d plan d
  | here {d e : Disk} {a : Action} {rest : Plan} (passes : a.Passes root d e) :
      Passes root d (a :: rest) e
  | later {d mid e : Disk} {a : Action} {rest : Plan} (ran : a.run root d = (.ok (), mid))
      (passes : Passes root mid rest e) : Passes root d (a :: rest) e

theorem Plan.run_passes (root : String) (plan : Plan) (d : Disk) :
    plan.Passes root d (plan.run root d).2 := by
  induction plan generalizing d with
  | nil => exact .start
  | cons a rest ih =>
    have ends : a.Passes root d (a.run root d).2 := .ended
    unfold Plan.run
    split
    · rename_i mid ran
      exact .later ran (ih mid)
    · exact .here ends

section
variable {d e : Disk} {base top : String} {B p : Place} {bytes : ByteArray}

theorem Disk.writeExportUnder_file {names : List String} {last : String} {content : FileContent}
    {fault : Fault} (leads : d.Leads base B) (plain : ∀ s ∈ names ++ [last], IsComponent s)
    (held : (d.writeExportUnder (some fault) (pathBelow base (names ++ [last])) content).2.get? p =
      some (.file bytes)) :
    d.get? p = some (.file bytes) ∨ p = B ++ (names ++ [last ++ ".tmp"]) := by
  have sibling : ∀ s ∈ names ++ [last ++ ".tmp"], IsComponent s := by
    simpa [or_imp, forall_and] using ⟨fun s member => plain s (List.mem_append_left _ member),
      sibling_component (plain last (by simp))⟩
  have through {d : Disk} (leads : d.Leads base B)
      (held : (d.writeThroughUnder (some fault) (pathBelow base (names ++ [last]))
        content.bytes).2.get? p = some (.file bytes)) :
      d.get? p = some (.file bytes) ∨ p = B ++ (names ++ [last ++ ".tmp"]) := by
    rw [writeThroughUnder_some, siblingOf_pathBelow base _ (plain last (by simp))] at held
    split at held
    · exact .inl held
    · rename_i create
      obtain ⟨dir, name, aims, _, _, rfl⟩ := createFile_ok create
      obtain ⟨rfl, rfl⟩ := aims.below leads sibling
      rw [get?_put _ (by simp)] at held
      split at held
      · rename_i here
        exact .inr (by simpa using here)
      · exact .inl held
  rw [writeExportUnder_eq] at held
  split at held
  · exact through leads held
  · rename_i above _
    have makes := makeDirAll_makes d above
    split at held
    · rename_i same
      rw [same] at makes
      exact .inl ((makes.files p bytes).mp held)
    · rename_i same
      rw [same] at makes
      exact (through (leads.kept makes.keeps) held).imp_left (makes.files p bytes).mp

theorem Action.passes_place {a : Action} (leads : d.Leads base B) (c : IsComponent top)
    (sound : ∀ names, a.place? = some names → IsFilePlace names)
    (passes : a.Passes (join base top) d e) (held : e.get? p = some (.file bytes)) :
    d.get? p = some (.file bytes) ∨ ∃ names last, a.place? = some (names ++ [last]) ∧
      (p = B ++ top :: (names ++ [last]) ∨ p = B ++ top :: (names ++ [last ++ ".tmp"])) := by
  induction passes with
  | @broken names content fault =>
    have place := sound names rfl
    obtain ⟨names, last, rfl⟩ := (List.eq_nil_or_concat' names).resolve_left place.filled
    have plain : ∀ s ∈ (top :: names) ++ [last], IsComponent s :=
      List.forall_mem_cons.mpr ⟨c, place.plain⟩
    rcases writeExportUnder_file leads plain held with before | here
    · exact .inl before
    · exact .inr ⟨names, last, rfl, .inr here⟩
  | copied read passes ih => exact ih (fun names filled => sound names filled) held
  | @ended a =>
    obtain ⟨r, after, ran⟩ : ∃ r after, a.run (join base top) d = (r, after) := ⟨_, _, rfl⟩
    rw [ran] at held
    rcases Action.run_exports leads c sound ran with same | ⟨names, last, _, filled, exports⟩
    · exact .inl (same ▸ held)
    by_cases here : p = B ++ top :: (names ++ [last])
    · exact .inr ⟨names, last, filled, .inl here⟩
    by_cases beside : p = B ++ top :: (names ++ [last ++ ".tmp"])
    · exact .inr ⟨names, last, filled, .inr beside⟩
    rcases exports.others p here beside with same | ⟨_, dir, _⟩
    · exact .inl (same ▸ held)
    · rw [dir] at held
      cases held

/- A plan makes no file but at the places of its actions and beside them. The induction is on the actions
   that went through. -/
theorem Plan.passes_place {plan : Plan} (leads : d.Leads base B) (c : IsComponent top)
    (sound : plan.Sound) (fits : plan.Fits IsExportFile) (passes : plan.Passes (join base top) d e)
    (held : e.get? p = some (.file bytes)) :
    d.get? p = some (.file bytes) ∨ IsExportPlace (B ++ [top]) p := by
  have first {d e : Disk} {a : Action} {rest : Plan} (leads : d.Leads base B)
      (sound : Sound (a :: rest)) (fits : Fits IsExportFile (a :: rest))
      (passes : a.Passes (join base top) d e) (held : e.get? p = some (.file bytes)) :
      d.get? p = some (.file bytes) ∨ IsExportPlace (B ++ [top]) p := by
    refine (Action.passes_place leads c (sound a (by simp)) passes held).imp_right ?_
    rintro ⟨names, last, filled, here⟩
    exact ⟨names, last, fits a (by simp) _ filled, by simpa using here⟩
  induction passes with
  | start => exact .inl held
  | here passes => exact first leads sound fits passes held
  | @later d mid e a rest ran _ ih =>
    have works := Action.run_worksIn leads c (sound a (by simp)) ran
    have ends : a.Passes (join base top) d (a.run (join base top) d).2 := .ended
    rw [ran] at ends
    rcases ih (leads.kept works.keeps) (fun b member => sound b (List.mem_cons_of_mem _ member))
      (fun b member => fits b (List.mem_cons_of_mem _ member)) held with before | placed
    · exact first leads sound fits ends before
    · exact .inr placed

end

namespace Exporter
open Plan

variable {x : Exporter} {consumer : Consumer} {es : List Entitlement} {now : Moment} {scope : Scope}
  {steps : List (String × Plan)} {d e : Disk} {area : String} {A p : Place} {bytes : ByteArray}

theorem steps_pass_files (known : steps ⊆ x.roster consumer es now scope) (leads : d.Leads area A)
    (passes : Passes (join area treeName) d (steps.flatMap Prod.snd) e)
    (held : e.get? p = some (.file bytes)) :
    d.get? p = some (.file bytes) ∨ IsExportPlace (A ++ [treeName]) p := by
  have sound : Sound (steps.flatMap Prod.snd) := by
    intro a member
    obtain ⟨step, here, action⟩ := List.mem_flatMap.mp member
    refine x.plan_sound consumer es now scope a ?_
    rw [plan_eq_roster]
    exact List.mem_flatMap.mpr ⟨step, known here, action⟩
  have fits := roster_fits (fun _ known => .top known)
    (fun _ listed _ records => records.exportFiles listed) rulesPlan_exportFiles x consumer es now scope
  exact passes_place leads treeName_component sound (fits_flatMap fun step here => fits step (known here))
    passes held

/- An attribute names a record's file exactly if it is one plain component, and the file is directly in
its directory, under a path that no other record and no sibling has. So no step leads a file out of the
tree or into any other directory of it, as long as it works or when it fails. -/
theorem record_names_stay_inside :
    (∀ dir stem extension, IsExtension extension →
      ((∃ path, recordPath dir stem extension = .ok path) ↔
        stem ≠ "" ∧ stem ≠ "." ∧ stem ≠ ".." ∧ '/' ∉ stem.toList ∧ '\\' ∉ stem.toList) ∧
      (∀ path, recordPath dir stem extension = .ok path →
        path = join dir (stem ++ "." ++ extension) ∧
        components path = ((components dir).1, (components dir).2 ++ [stem ++ "." ++ extension])) ∧
      (∀ e, recordPath dir stem extension = .error e → e = .invalidFileName stem) ∧
      ∀ root content d, (Action.record dir stem extension content).run root d =
        match recordPath (join root dir) stem extension with
        | .ok path => d.writeExport path content
        | .error e => (.error e, d)) ∧
    (∀ dir dir' stem stem' extension extension' path path',
      IsExtension extension → IsExtension extension' → recordPath dir stem extension = .ok path →
      recordPath dir' stem' extension' = .ok path' →
      (same path path' = true → same dir dir' = true ∧ stem = stem' ∧ extension = extension') ∧
      same path (siblingOf path') = false) ∧
    ∀ (x : Exporter) consumer es now scope steps, steps ⊆ x.roster consumer es now scope →
      ∀ (d : Disk) area A, d.Leads area A →
      Passes (join area treeName) d (steps.flatMap Prod.snd)
        (Plan.run (join area treeName) d (steps.flatMap Prod.snd)).2 ∧
      ∀ e, Passes (join area treeName) d (steps.flatMap Prod.snd) e →
        ∀ p bytes, e.get? p = some (.file bytes) →
        d.get? p = some (.file bytes) ∨ IsExportPlace (A ++ [treeName]) p := by
  refine ⟨fun dir stem extension known => ⟨?_, fun path made => ?_, fun e refused => ?_, ?_⟩, ?_, ?_⟩
  · rw [← isPlainName_iff]
    simp [recordPath_ok]
  · exact ⟨(recordPath_ok.mp made).2, recordPath_components known made⟩
  · unfold recordPath at refused
    split at refused
    · cases refused
    · exact (Except.error.inj refused).symm
  · exact fun root content d => Action.record_run root content d
  · intro dir dir' stem stem' extension extension' path path' known known' made made'
    exact ⟨recordPath_inj known known' made made', recordPath_ne_sibling known known' made made'⟩
  · intro x consumer es now scope steps known d area A leads
    exact ⟨run_passes _ _ _, fun e passes p bytes held => steps_pass_files known leads passes held⟩

def strayingExporter : Exporter :=
  { sampleExporter with
    source := { sampleSource with consumerTypes := .ok [{ label := "system" }, { label := "../x" }] } }

theorem record_names_stay_inside_straying :
    recordPath "products" "69" "json" = .ok "products/69.json" ∧
    recordPath "products" "69" "pem" = .ok "products/69.pem" ∧
    (¬ ∃ path, recordPath "consumer_types" "../x" "json" = .ok path) ∧
    same "products/69.json" (siblingOf "products/69.pem") = false ∧
    Leads (sampleDisk.put ["w"] .dir) "/w" ["w"] ∧ ∃ e,
    Plan.run "/w/export" (sampleDisk.put ["w"] .dir)
      ((strayingExporter.roster sampleConsumer [] sampleMoment (.full none none none)).flatMap
        Prod.snd) = (.error (.invalidFileName "../x"), e) ∧
    ∀ p bytes, e.get? p = some (.file bytes) →
      Disk.get? (sampleDisk.put ["w"] .dir) p = some (.file bytes) ∨ IsExportPlace ["w", "export"] p := by
  have leads : Leads (sampleDisk.put ["w"] .dir) "/w" ["w"] := ⟨by decide +kernel, by decide +kernel⟩
  obtain ⟨e, ran⟩ : ∃ e, Plan.run "/w/export" (sampleDisk.put ["w"] .dir)
      ((strayingExporter.roster sampleConsumer [] sampleMoment (.full none none none)).flatMap
        Prod.snd) = (.error (.invalidFileName "../x"), e) := refused (by decide +kernel)
  obtain ⟨single, apart, inside⟩ := record_names_stay_inside
  have path : recordPath "products" "69" "json" = .ok "products/69.json" := by decide +kernel
  have path' : recordPath "products" "69" "pem" = .ok "products/69.pem" := by decide +kernel
  refine ⟨path, path', ?_, ?_, leads, e, ran, ?_⟩
  · rw [(single _ "../x" _ .json).1]
    simp
  · exact (apart _ _ _ _ _ _ _ _ .json .pem path path').2
  · obtain ⟨passes, files⟩ := inside strayingExporter sampleConsumer [] sampleMoment (.full none none none)
      _ (List.Subset.refl _) _ "/w" _ leads
    have tree : join "/w" treeName = "/w/export" := by decide +kernel
    rw [tree, ran] at passes
    exact files e (tree ▸ passes)

end Exporter

end SignedManifest
