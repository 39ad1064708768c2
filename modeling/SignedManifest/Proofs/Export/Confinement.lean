import SignedManifest.Proofs.Export.Completed

/-!
Where exports keep to. Whatever becomes of an export, everything it does is done in its work area,
as long as the consumer's id is one component of a path: the id is joined to the area as it is.
-/
namespace SignedManifest.Exporter
open SignedManifest.Path Disk

variable {x : Exporter} {consumer : Consumer} {scope : Scope} {now : Moment} {names : List String}
  {d d' : Disk} {r : Except ExportError String}

/- An export ends before it has a work area, or everything after it is done in the area. -/
theorem run_inside (single : '/' ∉ consumer.uuid.toList)
    (ran : x.run consumer scope now names d = (r, d')) :
    (∃ e, (openArea d x.settings.workDir names).1 = .error e ∧ r = .error e ∧
      d.MakesDirs x.settings.workDir d') ∨
    ∃ area A opened, openArea d x.settings.workDir names = (.ok area, opened) ∧
      Opened d x.settings.workDir names area A opened ∧ opened.WorksIn A d' := by
  unfold run at ran
  split at ran
  · rename_i e after opens
    cases ran
    exact .inl ⟨e, by rw [opens], rfl, openArea_error opens⟩
  rename_i area opened opens
  obtain ⟨A, fresh⟩ := openArea_opens opens
  refine .inr ⟨area, A, opened, opens, fresh, ?_⟩
  split at ran
  · cases ran
    exact .refl _ _
  rename_i es listed
  simp only at ran
  have fills : ∀ result filled, (x.plan consumer es now scope).run (join area treeName) opened =
      (result, filled) → opened.WorksIn A filled := fun result filled fill =>
    (Plan.run_worksIn fresh.leads treeName_component (x.plan_sound consumer es now scope) fill).wider
  split at ran
  · rename_i fill
    cases ran
    exact fills _ _ fill
  rename_i filled fill
  have works := fills _ _ fill
  obtain ⟨keeps, changes⟩ := package_changes single ran
  refine works.trans ⟨keeps, fun p out => (changes p).resolve_right ?_⟩
  rintro ⟨W, work, here⟩
  obtain rfl := work.unique (fresh.leads.kept works.keeps)
  rcases here with rfl | rfl <;> exact out (List.prefix_append _ _)

/-- The work area `name` was made in the work directory `W`, and nothing outside of it was touched but
for directories that were missing on the way to `W`. -/
structure Confined (d : Disk) (workDir area : String) (W : Place) (name : String) (d' : Disk) :
    Prop where
  work : d'.Leads workDir W
  area : d'.Leads area (W ++ [name])
  missing : d.get? (W ++ [name]) = none
  outside : ∀ p, ¬ W ++ [name] <+: p → d'.get? p = d.get? p ∨
    d.get? p = none ∧ d'.get? p = some .dir ∧ d'.OnWay workDir p

theorem Opened.confined {workDir area : String} {A : Place} {opened : Disk}
    (fresh : Opened d workDir names area A opened) (works : opened.WorksIn A d')
    (homed : ∀ s ∈ d.current, IsComponent s) (plain : ∀ name ∈ names, IsComponent name) :
    ∃ W, ∃ name ∈ names, A = W ++ [name] ∧ Confined d workDir area W name d' := by
  obtain ⟨W, name, member, rfl, work⟩ := fresh.within homed plain
  refine ⟨W, name, member, rfl, work.kept works.keeps, fresh.leads.kept works.keeps, fresh.free,
    fun p out => ?_⟩
  have other : p ≠ W ++ [name] := by
    rintro rfl
    exact out List.prefix_rfl
  rw [works.outside p out]
  refine (fresh.others p other).imp_right fun ⟨free, dir, onWay⟩ => ⟨free, dir, ?_⟩
  exact onWay.kept (isDirAt_iff.mpr dir) works.keeps

/- An id without a slash keeps every export in its work area and every archive in its directory. -/
theorem single_id_stays_inside (single : '/' ∉ consumer.uuid.toList) :
    (∀ (x : Exporter) scope now names d r d', (∀ s ∈ d.current, IsComponent s) →
      (∀ name ∈ names, IsComponent name) → x.run consumer scope now names d = (r, d') →
      (∃ e, r = .error e ∧ d.MakesDirs x.settings.workDir d') ∨
      ∃ area W, ∃ name ∈ names, (openArea d x.settings.workDir names).1 = .ok area ∧
        Confined d x.settings.workDir area W name d' ∧
        ∀ path, r = .ok path → ∃ file, path = join area file ∧ IsComponent file ∧
          d'.locate path = .ok (W ++ [name, file])) ∧
    ∀ workDir exportDir naming signer d r d',
      package consumer.uuid workDir exportDir naming signer d = (r, d') →
      (∀ p, d'.get? p = d.get? p ∨ ∃ W, d.Leads workDir W ∧
        (p = W ++ [innerName] ∨ p = W ++ [signedFileName consumer.uuid exportDir])) ∧
      ∀ path, r = .ok path → ∃ W file, d.Leads workDir W ∧ path = join workDir file ∧
        d'.locate path = .ok (W ++ [file]) ∧
        d'.locate (join workDir innerName) = .ok (W ++ [innerName]) := by
  constructor
  · intro x scope now names d r d' homed plain ran
    rcases run_inside single ran with ⟨e, _, failed, makes⟩ | ⟨area, A, opened, opens, fresh, works⟩
    · exact .inl ⟨e, failed, makes⟩
    obtain ⟨W, name, member, rfl, confined⟩ := fresh.confined works homed plain
    refine .inr ⟨area, W, name, member, by rw [opens], confined, ?_⟩
    rintro path rfl
    obtain ⟨area', A, es, opened', filled, entries, signature, c⟩ := run_completed single ran
    obtain ⟨rfl, rfl⟩ : area = area' ∧ opened = opened' := by
      simpa using opens.symm.trans c.opens
    obtain rfl := fresh.leads.unique c.fresh.leads
    refine ⟨_, c.answer, signedFileName_component single _, ?_⟩
    rw [c.answer, c.packed.outer_locate]
    simp
  · intro workDir exportDir naming signer d r d' packed
    refine ⟨(package_changes single packed).2, ?_⟩
    rintro path rfl
    obtain ⟨rfl, W, S, entries, signature, done⟩ := package_ok packed
    exact ⟨W, _, done.work, rfl, done.outer_beside single ▸ done.outer_locate, done.inner_locate⟩

theorem single_id_stays_inside_sample : '/' ∉ sampleConsumer.uuid.toList ∧ ∃ d',
    sampleExporter.run sampleConsumer (.full none none none) sampleMoment ["a"] sampleDisk =
      (.ok "/w/a/c1-export.zip", d') ∧
    ∃ area W, ∃ name ∈ ["a"], (openArea sampleDisk "/w" ["a"]).1 = .ok area ∧
      Confined sampleDisk "/w" area W name d' ∧
      ∃ file, "/w/a/c1-export.zip" = join area file ∧ IsComponent file ∧
        d'.locate "/w/a/c1-export.zip" = .ok (W ++ [name, file]) := by
  have single : '/' ∉ sampleConsumer.uuid.toList := by decide
  have plain : ∀ name ∈ ["a"], IsComponent name := by
    simp only [List.mem_singleton, forall_eq]
    constructor <;> decide
  obtain ⟨d', ran⟩ := sample_run
  refine ⟨single, d', ran, ?_⟩
  have homed : ∀ s ∈ sampleDisk.current, IsComponent s := by simp [sampleDisk]
  rcases (single_id_stays_inside single).1 _ _ _ _ _ _ _ homed plain ran with
    ⟨e, bad, _⟩ | ⟨area, W, name, member, opens, confined, answer⟩
  · cases bad
  · exact ⟨area, W, name, member, opens, confined, answer _ rfl⟩

/- An id that goes up leads the signed archive out of the area, to where nothing stood. -/
theorem id_with_slash_leaves_area :
    (openArea sampleDisk "/w" ["a"]).1.toOption = some "/w/a" ∧
    (sampleExporter.run { sampleConsumer with uuid := "../c" } (.certificates none) sampleMoment ["a"]
      sampleDisk).1.toOption = some "/w/a/../c-export.zip" ∧
    (sampleDisk.get? ["w", "c-export.zip"]).isNone ∧
    ((sampleExporter.run { sampleConsumer with uuid := "../c" } (.certificates none) sampleMoment
      ["a"] sampleDisk).2.get? ["w", "c-export.zip"]).isSome := by
  decide +kernel

end SignedManifest.Exporter
