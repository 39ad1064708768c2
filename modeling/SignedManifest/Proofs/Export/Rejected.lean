import SignedManifest.Proofs.Export.Trees

/-!
Entitlements that the rules reject. Two full exports that succeed and differ in nothing else have the
same tree outside of the products, up to when it was made.
-/
namespace SignedManifest
open SignedManifest.Path Disk

/-- A list of entitlements comes from another one by putting in and taking out some that the rules
reject, anywhere. -/
inductive Alters (rules : ExportRules) : List Entitlement → List Entitlement → Prop where
  | nil : Alters rules [] []
  | keep (e : Entitlement) {as bs : List Entitlement} (rest : Alters rules as bs) :
      Alters rules (e :: as) (e :: bs)
  | insert {e : Entitlement} {as bs : List Entitlement} (rejected : rules e = false)
      (rest : Alters rules as bs) : Alters rules as (e :: bs)
  | remove {e : Entitlement} {as bs : List Entitlement} (rejected : rules e = false)
      (rest : Alters rules as bs) : Alters rules (e :: as) bs

theorem Alters.filter {rules : ExportRules} {as bs : List Entitlement} (alters : Alters rules as bs) :
    as.filter rules = bs.filter rules := by
  induction alters with
  | nil => rfl
  | keep e _ ih => simp only [List.filter_cons, ih]
  | insert rejected _ ih => simp [rejected, ih]
  | remove rejected _ ih => simp [rejected, ih]

namespace Exporter

def withEntitlements (x : Exporter) (other : Consumer → Except String (List Entitlement)) : Exporter :=
  { x with source := { x.source with entitlements := other } }

section
variable {x : Exporter} {other : Consumer → Except String (List Entitlement)} {consumer : Consumer}
  {cdn web api : Option String} {now now' : Moment} {names names' : List String}
  {d d' e e' opened filled : Disk} {path path' area text : String} {A : Place}
  {es as bs : List Entitlement} {entries : List Zip.Entry} {signature : ByteArray} {l m : Lookups}

/-! ### What two exports look up -/

theorem IsLegacyText.unique {path : Option String} {s : String} (this : IsLegacyText path d text)
    (that : IsLegacyText path d s) : text = s := by
  cases path with
  | none => exact this.trans that.symm
  | some path => exact Except.ok.inj (this.symm.trans that)

theorem Opened.legacy_eq (fresh : Opened d x.settings.workDir names area A opened)
    (grounded : d.Grounded) (works : opened.WorksIn A d')
    (legacy : IsLegacyText x.settings.legacyRulesPath d text) (finds : x.Finds consumer d' l) :
    l.legacyRules = text :=
  finds.legacyRules.unique (legacyText_kept (fresh.keeps.trans works.keeps)
    (fun _ _ held => fresh.files_kept grounded works held) legacy)

theorem Completed.packs_inside {scope : Scope}
    (c : Completed x consumer scope now names d path d' area A es opened filled entries signature) :
    opened.WorksIn A d' := by
  have apart : ∀ {p s}, ¬ A <+: p → p ≠ A ++ [s] := fun out same =>
    out (same ▸ List.prefix_append A _)
  have packing : filled.WorksIn A d' :=
    ⟨c.packed.keeps, fun p out => c.packed.others p (apart out) (apart out)⟩
  exact c.worksIn.wider.trans packing

theorem Finds.withEntitlements (finds : x.Finds consumer d l)
    (finds' : (x.withEntitlements other).Finds consumer e m) (legacy : l.legacyRules = m.legacyRules) :
    m = { l with entitlements := m.entitlements } := by
  obtain ⟨_, types, rules, _, versions, cdns⟩ := finds
  obtain ⟨_, types', rules', _, versions', cdns'⟩ := finds'
  obtain ⟨es, _, _, _, _, _⟩ := m
  simp only [Lookups.mk.injEq, true_and]
  exact ⟨Except.ok.inj (types'.symm.trans types), Except.ok.inj (rules'.symm.trans rules), legacy.symm,
    Except.ok.inj (versions'.symm.trans versions), Except.ok.inj (cdns'.symm.trans cdns)⟩

/-! ### The trees of two exports -/

/- The products are the only files that rejected entitlements can be in. -/
theorem FullFile.withEntitlements {place : Place}
    (same : l.entitlements.filter x.rules = es.filter x.rules)
    (outside : place.head? ≠ some "products") (dated : place ≠ ["meta.json"])
    (file : FullFile x consumer cdn web api now l place text) :
    FullFile (x.withEntitlements other) consumer cdn web api now' { l with entitlements := es } place
      text := by
  cases file with
  | metadata => exact absurd rfl dated
  | consumer => exact .consumer
  | identity has => exact .identity has
  | entitlement last =>
    rw [same] at last
    exact .entitlement last
  | certificate last =>
    rw [same] at last
    exact .certificate last
  | product | productCertificate => exact absurd rfl outside
  | consumerType last => exact .consumerType last
  | rules => exact .rules
  | legacyRules => exact .legacyRules
  | distributorVersion last => exact .distributorVersion last
  | cdn last => exact .cdn last

theorem fullFile_withEntitlements {place : Place}
    (same : l.entitlements.filter x.rules = es.filter x.rules)
    (outside : place.head? ≠ some "products") (dated : place ≠ ["meta.json"]) :
    FullFile x consumer cdn web api now l place text ↔
      FullFile (x.withEntitlements other) consumer cdn web api now' { l with entitlements := es } place
        text :=
  -- The first exporter is the second one with its entitlements put back.
  ⟨fun file => file.withEntitlements same outside dated, fun file =>
    FullFile.withEntitlements (x := x.withEntitlements other) (l := { l with entitlements := es })
      same.symm outside dated file⟩

theorem trees_alike {T U : Place} (timber : d.Timber T) (timber' : e.Timber U)
    (same : l.entitlements.filter x.rules = es.filter x.rules)
    (files : ∀ place bytes, d.get? (T ++ place) = some (.file bytes) ↔
      ∃ text, FullFile x consumer cdn web api now l place text ∧ bytes = text.toUTF8)
    (files' : ∀ place bytes, e.get? (U ++ place) = some (.file bytes) ↔
      ∃ text, FullFile (x.withEntitlements other) consumer cdn web api now' { l with entitlements := es }
        place text ∧ bytes = text.toUTF8)
    (place : Place) (outside : place.head? ≠ some "products") (dated : place ≠ ["meta.json"]) :
    d.get? (T ++ place) = e.get? (U ++ place) := by
  cases place with
  | nil =>
    -- The root is above the products and the creation time, but it is a directory in any case.
    have root := (timber []).2.mpr ⟨["meta.json"], _, by simp, (files _ _).mpr ⟨_, .metadata, rfl⟩⟩
    have root' := (timber' []).2.mpr ⟨["meta.json"], _, by simp, (files' _ _).mpr ⟨_, .metadata, rfl⟩⟩
    rw [root, root']
  | cons s t =>
    refine timber.get?_eq timber' fun more bytes => ?_
    have undated : s :: t ++ more ≠ ["meta.json"] := by
      intro whole
      simp only [List.cons_append, List.cons.injEq, List.append_eq_nil_iff] at whole
      exact dated (by simp [whole])
    rw [files, files']
    exact exists_congr fun _ => and_congr_left' (fullFile_withEntitlements same outside undated)

/- Entitlements that the rules reject leave no trace outside of the products. The legacy rules are part
   of the surroundings: their file has one text before either export. That the rejected entitlements are
   clean need not be asked for, since dirty ones let no export succeed. -/
theorem rejected_leave_no_trace (single : '/' ∉ consumer.uuid.toList) (grounded : d.Grounded)
    (grounded' : e.Grounded) (legacy : IsLegacyText x.settings.legacyRulesPath d text)
    (legacy' : IsLegacyText x.settings.legacyRulesPath e text)
    (listed : x.source.entitlements consumer = .ok as) (listed' : other consumer = .ok bs)
    (alters : Alters x.rules as bs)
    (ran : x.run consumer (.full cdn web api) now names d = (.ok path, d'))
    (ran' : (x.withEntitlements other).run consumer (.full cdn web api) now' names' e =
      (.ok path', e')) :
    ∃ area area' tree tree', (openArea d x.settings.workDir names).1 = .ok area ∧
      (openArea e x.settings.workDir names').1 = .ok area' ∧
      d'.locate (join area treeName) = .ok tree ∧ e'.locate (join area' treeName) = .ok tree' ∧
      (∀ place, place.head? ≠ some "products" → place ≠ ["meta.json"] →
        d'.get? (tree ++ place) = e'.get? (tree' ++ place)) ∧
      ∃ info : Meta,
        d'.get? (tree ++ ["meta.json"]) = some (.file (Meta.layout.json info).sorted.text.toUTF8) ∧
        e'.get? (tree' ++ ["meta.json"]) =
          some (.file (Meta.layout.json { info with created := now' }).sorted.text.toUTF8) := by
  obtain ⟨area, A, _, _, _, _, _, c⟩ := run_completed single ran
  obtain ⟨area', B, _, _, _, _, _, c'⟩ := run_completed single ran'
  obtain ⟨l, finds, rfl, files⟩ := c.full_tree grounded
  obtain ⟨m, finds', rfl, files'⟩ := c'.full_tree grounded'
  obtain rfl := Except.ok.inj (listed.symm.trans finds.entitlements)
  obtain rfl := Except.ok.inj (listed'.symm.trans finds'.entitlements)
  have one : l.legacyRules = m.legacyRules :=
    (c.fresh.legacy_eq grounded c.packs_inside legacy finds).trans
      (c'.fresh.legacy_eq grounded' c'.packs_inside legacy' finds').symm
  have whole := finds.withEntitlements finds' one
  have accepted := alters.filter
  generalize m.entitlements = bs at whole accepted
  subst whole
  refine ⟨area, area', A ++ [treeName], B ++ [treeName], by rw [c.opens], congrArg Prod.fst c'.opens,
    c.entries_eq.1, c'.entries_eq.1, ?_, ⟨x.settings.version, now, x.principal, none, cdn⟩, ?_, ?_⟩
  · exact trees_alike (Completed.timber_kept c grounded) (Completed.timber_kept c' grounded') accepted
      (fun place bytes => by simpa using files place bytes)
      (fun place bytes => by simpa using files' place bytes)
  · simpa using (files ["meta.json"] _).mpr ⟨_, .metadata, rfl⟩
  · simpa [withEntitlements] using (files' ["meta.json"] _).mpr ⟨_, .metadata, rfl⟩

end

def shadowEntitlement : Entitlement where
  id := "e1"
  quantity := 2
  certificates := [.ofSerial 7 "OTHER CERT\n" "OTHER KEY\n"]
  pool := { id := "p2", quantity := 5, product := { id := "70", name := "OS" },
            attributes := .ofList [(Pool.derivedAttribute, "true")] }

def shadowed (consumer : Consumer) : Except String (List Entitlement) :=
  (sampleSource.entitlements consumer).map (· ++ [shadowEntitlement])

theorem rejected_leave_no_trace_sample : '/' ∉ sampleConsumer.uuid.toList ∧ sampleDisk.Grounded ∧
    IsLegacyText (some "/o") sampleDisk "// old\n" ∧
    (∃ as bs, sampleSource.entitlements sampleConsumer = .ok as ∧ shadowed sampleConsumer = .ok bs ∧
      Alters .skipDerivedPools as bs) ∧
    ∃ d' e', sampleExporter.run sampleConsumer (.full none none none) sampleMoment ["a"] sampleDisk =
        (.ok "/w/a/c1-export.zip", d') ∧
      (sampleExporter.withEntitlements shadowed).run sampleConsumer (.full none none none) sampleMoment
        ["b"] sampleDisk = (.ok "/w/b/c1-export.zip", e') ∧
      ∃ tree tree', d'.locate "/w/a/export" = .ok tree ∧ e'.locate "/w/b/export" = .ok tree' ∧
        ∀ place, place.head? ≠ some "products" → place ≠ ["meta.json"] →
          d'.get? (tree ++ place) = e'.get? (tree' ++ place) := by
  have single : '/' ∉ sampleConsumer.uuid.toList := by decide
  have legacy : IsLegacyText (some "/o") sampleDisk "// old\n" := by
    show sampleDisk.contentText "/o" = _
    decide +kernel
  have alters : ∀ e, Alters .skipDerivedPools [e] [e, shadowEntitlement] := fun e =>
    .keep e (.insert (by decide) .nil)
  obtain ⟨d', ran⟩ := sample_run
  obtain ⟨e', ran'⟩ : ∃ e', (sampleExporter.withEntitlements shadowed).run sampleConsumer
      (.full none none none) sampleMoment ["b"] sampleDisk = (.ok "/w/b/c1-export.zip", e') :=
    answered (by decide +kernel)
  refine ⟨single, sampleDisk_grounded, legacy, ⟨_, _, rfl, rfl, alters _⟩, d', e', ran, ran', ?_⟩
  obtain ⟨area, area', tree, tree', opens, opens', found, found', same, _⟩ :=
    rejected_leave_no_trace single sampleDisk_grounded sampleDisk_grounded legacy legacy rfl rfl
      (alters _) ran ran'
  have first : (openArea sampleDisk "/w" ["a"]).1 = .ok "/w/a" := by decide +kernel
  have second : (openArea sampleDisk "/w" ["b"]).1 = .ok "/w/b" := by decide +kernel
  cases first.symm.trans opens
  cases second.symm.trans opens'
  exact ⟨tree, tree', found, found', same⟩

end Exporter
end SignedManifest
