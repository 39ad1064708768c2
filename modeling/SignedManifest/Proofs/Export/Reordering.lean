import SignedManifest.Proofs.Export.Refilling
import SignedManifest.Proofs.Export.Rejected

/-!
The order of a source's rows. Where no two rows go to one file and products with the same id are the same,
exports from the same rows in another order succeed together, leave the same disk, and from disks that
differ pack the same inner archive.
-/
namespace SignedManifest
open SignedManifest.Path Disk Plan Roster

/-! ### Sources with the same rows -/

inductive Shuffled {α : Type} : Except String (List α) → Except String (List α) → Prop where
  | rows {as bs : List α} (perm : as.Perm bs) : Shuffled (.ok as) (.ok bs)
  | refusal (cause : String) : Shuffled (.error cause) (.error cause)

namespace Shuffled
variable {α : Type} {r r' : Except String (List α)} {as bs : List α}

theorem symm (shuffled : Shuffled r r') : Shuffled r' r := by
  cases shuffled with
  | rows perm => exact .rows perm.symm
  | refusal cause => exact .refusal cause

theorem answer (shuffled : Shuffled r r') (found : r = .ok as) : ∃ bs, r' = .ok bs ∧ as.Perm bs := by
  cases shuffled with
  | rows perm =>
    cases found
    exact ⟨_, rfl, perm⟩
  | refusal cause => cases found

theorem perm (shuffled : Shuffled r r') (found : r = .ok as) (found' : r' = .ok bs) : as.Perm bs := by
  obtain ⟨_, same, perm⟩ := shuffled.answer found
  obtain rfl := Except.ok.inj (found'.symm.trans same)
  exact perm

end Shuffled

namespace Source

/-- Two sources that differ in the order of their rows alone. -/
structure Shuffles (s t : Source) : Prop where
  entitlements : ∀ consumer, Shuffled (s.entitlements consumer) (t.entitlements consumer)
  consumerTypes : Shuffled s.consumerTypes t.consumerTypes
  distributorVersions : Shuffled s.distributorVersions t.distributorVersions
  cdns : Shuffled s.cdns t.cdns
  rules : s.rules = t.rules
  productCertificate : s.productCertificate = t.productCertificate
  contentAccessCertificate : s.contentAccessCertificate = t.contentAccessCertificate

/-- No two rows that a full export writes go to one file, and products with the same id are the same. -/
structure Distinct (s : Source) (rules : ExportRules) (consumer : Consumer) : Prop where
  ids : ∀ es, s.entitlements consumer = .ok es → ((es.filter rules).map Entitlement.id).Nodup
  serials : ∀ es, s.entitlements consumer = .ok es →
    (((es.filter rules).flatMap Entitlement.certificates).map (·.serial.id)).Nodup
  products : ∀ es, s.entitlements consumer = .ok es →
    ∀ p ∈ es.flatMap Entitlement.products, ∀ q ∈ es.flatMap Entitlement.products, p.id = q.id → p = q
  typeLabels : ∀ ts, s.consumerTypes = .ok ts → (ts.map ConsumerType.label).Nodup
  versionNames : ∀ vs, s.distributorVersions = .ok vs → (vs.map DistributorVersion.name).Nodup
  cdnLabels : ∀ cs, s.cdns = .ok cs → (cs.map Cdn.label).Nodup

variable {s t : Source} {rules : ExportRules} {consumer : Consumer}

theorem Shuffles.symm (shuffles : s.Shuffles t) : t.Shuffles s where
  entitlements consumer := (shuffles.entitlements consumer).symm
  consumerTypes := shuffles.consumerTypes.symm
  distributorVersions := shuffles.distributorVersions.symm
  cdns := shuffles.cdns.symm
  rules := shuffles.rules.symm
  productCertificate := shuffles.productCertificate.symm
  contentAccessCertificate := shuffles.contentAccessCertificate.symm

theorem Distinct.shuffled (distinct : s.Distinct rules consumer) (shuffles : s.Shuffles t) :
    t.Distinct rules consumer where
  ids bs found := by
    obtain ⟨as, found', perm⟩ := (shuffles.entitlements consumer).symm.answer found
    exact ((perm.filter rules).map _).nodup_iff.mpr (distinct.ids as found')
  serials bs found := by
    obtain ⟨as, found', perm⟩ := (shuffles.entitlements consumer).symm.answer found
    exact (((perm.filter rules).flatMap_right _).map _).nodup_iff.mpr (distinct.serials as found')
  products bs found := by
    obtain ⟨as, found', perm⟩ := (shuffles.entitlements consumer).symm.answer found
    have reached := fun p => (perm.flatMap_right Entitlement.products).mem_iff (a := p)
    intro p first q second same
    exact distinct.products as found' p ((reached p).mp first) q ((reached q).mp second) same
  typeLabels bs found := by
    obtain ⟨as, found', perm⟩ := shuffles.consumerTypes.symm.answer found
    exact (perm.map _).nodup_iff.mpr (distinct.typeLabels as found')
  versionNames bs found := by
    obtain ⟨as, found', perm⟩ := shuffles.distributorVersions.symm.answer found
    exact (perm.map _).nodup_iff.mpr (distinct.versionNames as found')
  cdnLabels bs found := by
    obtain ⟨as, found', perm⟩ := shuffles.cdns.symm.answer found
    exact (perm.map _).nodup_iff.mpr (distinct.cdnLabels as found')

end Source

/-! ### Steps over the same rows -/

section
variable {α : Type} {dir extension : String} {stem : α → String} {content : α → FileContent}
  {as bs : List α}

theorem Plan.alike_records (perm : as.Perm bs) (distinct : (as.map stem).Nodup) :
    Alike (as.map fun a => .record dir (stem a) extension (content a))
      (bs.map fun b => .record dir (stem b) extension (content b)) := by
  have clean : Clean (as.map fun a => .record dir (stem a) extension (content a)) ↔
      Clean (bs.map fun b => .record dir (stem b) extension (content b)) :=
    forall_congr' fun err => not_congr (perm.map _).mem_iff
  refine ⟨clean, fun tidy ⟨place, bytes⟩ => ?_⟩
  rw [records_isLast tidy, records_isLast (clean.mp tidy)]
  simp only [isLast_of_nodup distinct, isLast_of_nodup ((perm.map stem).nodup_iff.mp distinct),
    perm.mem_iff]

end

namespace Roster
variable {rules : ExportRules} {es fs : List Entitlement}

theorem entitlementsPlan_alike (perm : es.Perm fs) (ids : ((es.filter rules).map Entitlement.id).Nodup) :
    Alike (entitlementsPlan rules es) (entitlementsPlan rules fs) := by
  by_cases tidy : ∀ e ∈ es, e.dirty = false
  · rw [entitlementsPlan_tidy tidy,
      entitlementsPlan_tidy fun e member => tidy e (perm.mem_iff.mpr member)]
    exact alike_records (perm.filter rules) ids
  · have stuck : ¬ (entitlementsPlan rules es).Clean := fun clean => tidy (tidy_of_clean clean)
    have stuck' : ¬ (entitlementsPlan rules fs).Clean := fun clean =>
      tidy fun e member => tidy_of_clean clean e (perm.mem_iff.mp member)
    exact ⟨iff_of_false stuck stuck', fun clean => absurd clean stuck⟩

theorem certificatesPlan_alike (perm : es.Perm fs)
    (serials : (((es.filter rules).flatMap Entitlement.certificates).map (·.serial.id)).Nodup) :
    Alike (certificatesPlan ⟨none, some rules⟩ es) (certificatesPlan ⟨none, some rules⟩ fs) := by
  have stems := serials.map (f := fun n : UInt64 => toString n.toNat) fun _ _ same => stem_inj.mp same
  rw [List.map_map] at stems
  rw [certificatesPlan, certificatesPlan, select_accepted, select_accepted]
  exact alike_records ((perm.filter rules).flatMap_right _) stems

theorem productClosure_shuffled (perm : es.Perm fs)
    (products : ∀ p ∈ es.flatMap Entitlement.products, ∀ q ∈ es.flatMap Entitlement.products,
      p.id = q.id → p = q) : productClosure es = productClosure fs := by
  have reached := fun p => (perm.flatMap_right Entitlement.products).mem_iff (a := p)
  have found : ∀ {ps : List Product} {id p}, (∀ p ∈ ps, ∀ q ∈ ps, p.id = q.id → p = q) →
      ((ps.find? fun p => p.id == id) = some p ↔ p ∈ ps ∧ p.id = id) := by
    intro ps id p unique
    refine ⟨fun first => ⟨List.mem_of_find?_eq_some first, by simpa using List.find?_some first⟩, ?_⟩
    rintro ⟨member, rfl⟩
    obtain ⟨q, first⟩ : ∃ q, (ps.find? fun q => q.id == p.id) = some q :=
      Option.isSome_iff_exists.mp (List.find?_isSome.mpr ⟨p, member, by simp⟩)
    rw [first, unique q (List.mem_of_find?_eq_some first) p member (by simpa using List.find?_some first)]
  refine SortedMap.ext_get? fun id p => ?_
  rw [productClosure_get?, productClosure_get?, found products, found fun p first q second =>
    products p ((reached p).mpr first) q ((reached q).mpr second), reached]

theorem productsPlan_shuffled {s t : Source} (certificates : s.productCertificate = t.productCertificate)
    (owner : String) (perm : es.Perm fs)
    (products : ∀ p ∈ es.flatMap Entitlement.products, ∀ q ∈ es.flatMap Entitlement.products,
      p.id = q.id → p = q) : productsPlan s owner es = productsPlan t owner fs := by
  have each : productPlan s owner = productPlan t owner := by
    funext p
    simp only [productPlan, certificates]
  rw [productsPlan, productsPlan, productClosure_shuffled perm products, each]

end Roster

namespace Exporter

def withSource (x : Exporter) (s : Source) : Exporter := { x with source := s }

/-! ### The steps of two exports -/

section
variable {x : Exporter} {s t : Source} {consumer : Consumer} {cdn web api : Option String}
  {now : Moment} {names names' : List String} {d d' e e' mid mid' opened filled : Disk}
  {path path' area text : String} {B : Place} {es fs : List Entitlement} {l m : Lookups}
  {ws : List (Place × ByteArray)}

theorem steps_regular (x : Exporter) (consumer : Consumer) (cdn web api : Option String) (now : Moment)
    (l : Lookups) : Regular ((x.stepsBefore consumer cdn web api now l).flatMap Prod.snd) ∧
      Regular ((stepsAfter l).flatMap Prod.snd) := by
  have apart := x.steps_apart consumer cdn web api now l
  refine ⟨⟨apart.left.sound, ?_, apart.left.direct⟩, apart.right.sound, ?_, apart.right.direct⟩
  · simp only [stepsBefore, List.flatMap_cons, List.flatMap_nil, List.append_nil, fits_append]
    exact ⟨fits_write (.top (.inl rfl)), fits_write (.top (.inr rfl)),
      (identityPlan_records _).fits (by decide), (entitlementsPlan_records _ _).fits (by decide),
      (certificatesPlan_records _ _).fits (by decide),
      (productsPlan_records _ _ _).fits (by decide), (consumerTypesPlan_records _).fits (by decide),
      fits_write (.script (by decide) (by decide))⟩
  · simp only [stepsAfter, List.flatMap_cons, List.flatMap_nil, List.append_nil, fits_append]
    exact ⟨fits_write (.script (by decide) (by decide)),
      (distributorVersionsPlan_records _).fits (by decide), (cdnsPlan_records _).fits (by decide)⟩

variable (shuffles : s.Shuffles t) (distinct : s.Distinct x.rules consumer)
include shuffles distinct

theorem stepsBefore_alike (finds : (x.withSource s).Finds consumer mid l)
    (finds' : (x.withSource t).Finds consumer mid' m) :
    StepsAlike ((x.withSource s).stepsBefore consumer cdn web api now l)
      ((x.withSource t).stepsBefore consumer cdn web api now m) := by
  have perm := (shuffles.entitlements consumer).perm finds.entitlements finds'.entitlements
  have types := shuffles.consumerTypes.perm finds.consumerTypes finds'.consumerTypes
  have products := productsPlan_shuffled shuffles.productCertificate consumer.ownerKey perm
    (distinct.products _ finds.entitlements)
  have rules : l.rules = m.rules :=
    Except.ok.inj (finds.rules.symm.trans (shuffles.rules.trans finds'.rules))
  refine .cons (.refl _) <| .cons (.refl _) <| .cons (.refl _) <|
    .cons (entitlementsPlan_alike perm (distinct.ids _ finds.entitlements)) <|
    .cons (certificatesPlan_alike perm (distinct.serials _ finds.entitlements)) <|
    .cons ?_ <| .cons (alike_records types (distinct.typeLabels _ finds.consumerTypes)) <|
    .cons ?_ .nil
  · exact products ▸ .refl _
  · exact rules ▸ .refl _

theorem stepsAfter_alike (finds : (x.withSource s).Finds consumer mid l)
    (finds' : (x.withSource t).Finds consumer mid' m) (legacy : l.legacyRules = m.legacyRules) :
    StepsAlike (stepsAfter l) (stepsAfter m) := by
  have versions := shuffles.distributorVersions.perm finds.distributorVersions
    finds'.distributorVersions
  have cdns := shuffles.cdns.perm finds.cdns finds'.cdns
  refine .cons ?_ <| .cons (alike_records versions (distinct.versionNames _ finds.distributorVersions)) <|
    .cons (alike_records cdns (distinct.cdnLabels _ finds.cdns)) .nil
  exact legacy ▸ .refl _

/-! ### Exports from one disk -/

/- Where the steps before the legacy rules leave the same disk, the legacy rules are the same. -/
theorem plan_shuffled (filling : opened.Filling area treeName B ws)
    (found : s.entitlements consumer = .ok es) (found' : t.entitlements consumer = .ok fs)
    (ran : ((x.withSource s).plan consumer es now (.full cdn web api)).run (join area treeName) opened =
      (.ok (), filled)) :
    ((x.withSource t).plan consumer fs now (.full cdn web api)).run (join area treeName) opened =
      (.ok (), filled) := by
  obtain ⟨l, mid, finds, before, after⟩ := run_full found ran
  obtain ⟨types, foundTypes, _⟩ := shuffles.consumerTypes.answer finds.consumerTypes
  obtain ⟨versions, foundVersions, _⟩ := shuffles.distributorVersions.answer finds.distributorVersions
  obtain ⟨cdns, foundCdns, _⟩ := shuffles.cdns.answer finds.cdns
  let m : Lookups := ⟨fs, types, l.rules, l.legacyRules, versions, cdns⟩
  have finds' : (x.withSource t).Finds consumer mid m :=
    ⟨found', foundTypes, shuffles.rules.symm.trans finds.rules, finds.legacyRules, foundVersions,
      foundCdns⟩
  have apart := (x.withSource s).steps_apart consumer cdn web api now l
  have apart' := (x.withSource t).steps_apart consumer cdn web api now m
  obtain ⟨first, second⟩ := (x.withSource s).steps_regular consumer cdn web api now l
  obtain ⟨first', second'⟩ := (x.withSource t).steps_regular consumer cdn web api now m
  have early := (stepsBefore_alike shuffles distinct finds finds').alike apart.left apart'.left
  have late := (stepsAfter_alike shuffles distinct finds finds' rfl).alike apart.right apart'.right
  have next := filling.fill treeName_component first.sound first.fits before
  have through := run_of_steps finds' (early.run filling treeName_component first first' before)
    (late.run next treeName_component second second' after)
  exact through

theorem run_shuffled (grounded : d.Grounded)
    (ran : (x.withSource s).run consumer (.full cdn web api) now names d = (.ok path, d')) :
    (x.withSource t).run consumer (.full cdn web api) now names d = (.ok path, d') := by
  obtain ⟨area, opened, es, filled, opens, listed, fill, packed⟩ := run_ok.mp ran
  obtain ⟨A, fresh⟩ := openArea_opens opens
  obtain ⟨fs, listed', _⟩ := (shuffles.entitlements consumer).answer listed
  have filling := fresh.filling grounded (Opened.grounded grounded opens)
  exact run_ok.mpr ⟨area, opened, fs, filled, opens, listed',
    plan_shuffled shuffles distinct filling listed listed' fill, packed⟩

/-! ### Exports from any disks -/

theorem archives_shuffled (grounded : d.Grounded) (grounded' : e.Grounded)
    (legacy : IsLegacyText x.settings.legacyRulesPath d text)
    (legacy' : IsLegacyText x.settings.legacyRulesPath e text)
    (ran : (x.withSource s).run consumer (.full cdn web api) now names d = (.ok path, d'))
    (ran' : (x.withSource t).run consumer (.full cdn web api) now names' e = (.ok path', e')) :
    ∃ area area' entries, (openArea d x.settings.workDir names).1 = .ok area ∧
      (openArea e x.settings.workDir names').1 = .ok area' ∧
      d'.content (join area innerName) = .ok (innerArchive consumer.uuid entries).encode ∧
      e'.content (join area' innerName) = .ok (innerArchive consumer.uuid entries).encode := by
  obtain ⟨area, A, _, es, opened, filled, entries, _, f⟩ := run_finished ran
  obtain ⟨area', B, _, fs, opened', filled', entries', _, g⟩ := run_finished ran'
  obtain ⟨l, mid, finds, _, works, _, _, clean, tree⟩ := f.fresh.steps_tree grounded f.listed f.ran
  obtain ⟨m, mid', finds', _, works', _, _, _, tree'⟩ := g.fresh.steps_tree grounded' g.listed g.ran
  have same : l.legacyRules = m.legacyRules :=
    (f.fresh.legacy_eq grounded works.wider legacy finds).trans
      (g.fresh.legacy_eq grounded' works'.wider legacy' finds').symm
  have alike := ((stepsBefore_alike shuffles distinct finds finds').append
    (stepsAfter_alike shuffles distinct finds finds' same)).alike
      ((x.withSource s).steps_apart consumer cdn web api now l)
      ((x.withSource t).steps_apart consumer cdn web api now m)
  have files : filled.filesBelow (A ++ [treeName]) = filled'.filesBelow (B ++ [treeName]) :=
    filesBelow_congr fun place bytes _ => by rw [tree, tree', alike.last clean]
  have named : entryName x.settings.entryNaming (join area treeName) =
      entryName x.settings.entryNaming (join area' treeName) := by
    funext place
    simp only [entryName, fileName?_join _ treeName_component]
  have packed : entries = entries' := by
    rw [f.entries_filled.1, g.entries_filled.1, files]
    simp only [withSource, named]
  exact ⟨area, area', entries, congrArg Prod.fst f.opens, congrArg Prod.fst g.opens,
    f.packed.inner_content, packed ▸ g.packed.inner_content⟩

end

section
variable {x : Exporter} {s t : Source} {consumer : Consumer} {cdn web api : Option String} {now : Moment}
  {names : List String} {d : Disk}

/- From one disk one export succeeds if the other does, and they leave the same disk, the archives on it
   included. From two disks, and in work areas of any names, exports that succeed pack the same. -/
theorem row_order_irrelevant (shuffles : s.Shuffles t) (distinct : s.Distinct x.rules consumer)
    (grounded : d.Grounded) :
    (∀ path d', (x.withSource s).run consumer (.full cdn web api) now names d = (.ok path, d') ↔
      (x.withSource t).run consumer (.full cdn web api) now names d = (.ok path, d')) ∧
    ∀ {e d' e' : Disk} {names' : List String} {path path' text : String}, e.Grounded →
      IsLegacyText x.settings.legacyRulesPath d text → IsLegacyText x.settings.legacyRulesPath e text →
      (x.withSource s).run consumer (.full cdn web api) now names d = (.ok path, d') →
      (x.withSource t).run consumer (.full cdn web api) now names' e = (.ok path', e') →
      ∃ area area' entries, (openArea d x.settings.workDir names).1 = .ok area ∧
        (openArea e x.settings.workDir names').1 = .ok area' ∧
        d'.content (join area innerName) = .ok (innerArchive consumer.uuid entries).encode ∧
        e'.content (join area' innerName) = .ok (innerArchive consumer.uuid entries).encode :=
  ⟨fun _ _ => ⟨run_shuffled shuffles distinct grounded,
      run_shuffled shuffles.symm (distinct.shuffled shuffles) grounded⟩,
    fun grounded' => archives_shuffled shuffles distinct grounded grounded'⟩

end

/-! ### Two entitlements of one product -/

def sampleRows : List Entitlement :=
  let pool : Pool := { id := "p1", quantity := 5, product := { id := "69", name := "OS" } }
  [{ id := "e1", quantity := 1, certificates := [.ofSerial 7 "CERT\n" "KEY\n"], pool },
    { id := "e2", quantity := 1, certificates := [.ofSerial 8 "CERT\n" "KEY\n"], pool }]

def rowsSource (rows : List Entitlement) : Source :=
  { sampleSource with entitlements := fun _ => .ok rows }

theorem sampleRows_distinct :
    (rowsSource sampleRows).Distinct sampleExporter.rules sampleConsumer where
  ids := by
    rintro _ ⟨⟩
    decide
  serials := by
    rintro _ ⟨⟩
    decide
  products := by
    rintro _ ⟨⟩
    simp [sampleRows, Entitlement.products, Product.tree, Product.trees]
  typeLabels := by
    rintro _ ⟨⟩
    decide
  versionNames := by
    rintro _ ⟨⟩
    decide
  cdnLabels := by
    rintro _ ⟨⟩
    decide

theorem row_order_irrelevant_sample :
    (rowsSource sampleRows).Shuffles (rowsSource sampleRows.reverse) ∧
    (rowsSource sampleRows).Distinct sampleExporter.rules sampleConsumer ∧ sampleDisk.Grounded ∧
    IsLegacyText (some "/o") sampleDisk "// old\n" ∧
    ∃ d', (sampleExporter.withSource (rowsSource sampleRows)).run sampleConsumer (.full none none none)
        sampleMoment ["a"] sampleDisk = (.ok "/w/a/c1-export.zip", d') ∧
      (sampleExporter.withSource (rowsSource sampleRows.reverse)).run sampleConsumer
        (.full none none none) sampleMoment ["a"] sampleDisk = (.ok "/w/a/c1-export.zip", d') ∧
      ∃ area entries, (openArea sampleDisk "/w" ["a"]).1 = .ok area ∧
        d'.content (join area innerName) = .ok (innerArchive "c1" entries).encode := by
  have shuffles : (rowsSource sampleRows).Shuffles (rowsSource sampleRows.reverse) :=
    ⟨fun _ => .rows (List.reverse_perm _).symm, .rows .rfl, .rows .rfl, .rows .rfl, rfl, rfl, rfl⟩
  have legacy : IsLegacyText (some "/o") sampleDisk "// old\n" := by
    show sampleDisk.contentText "/o" = _
    decide +kernel
  obtain ⟨d', ran⟩ : ∃ d', (sampleExporter.withSource (rowsSource sampleRows)).run sampleConsumer
      (.full none none none) sampleMoment ["a"] sampleDisk = (.ok "/w/a/c1-export.zip", d') :=
    answered (by decide +kernel)
  obtain ⟨together, same⟩ := row_order_irrelevant (x := sampleExporter) shuffles sampleRows_distinct
    sampleDisk_grounded
  have ran' := (together _ d').mp ran
  obtain ⟨area, _, entries, opens, _, inner, _⟩ := same sampleDisk_grounded legacy legacy ran ran'
  exact ⟨shuffles, sampleRows_distinct, sampleDisk_grounded, legacy, d', ran, ran', area, entries,
    opens, inner⟩

end Exporter
end SignedManifest
