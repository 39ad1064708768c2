import SignedManifest.Proofs.Export.DirtyGate
import SignedManifest.Proofs.Export.Rejected

/-!
The certificates of entitlements, in exports of certificates alone and in full ones. Both write them
alike; serials pick files from what is written without them, and neither the rules nor dirty flags have
a say in an export of certificates alone.
-/
namespace SignedManifest
open SignedManifest.Path Disk

/-! ### Steps that keep to other directories -/

def Besides (folder : String) (place : Place) : Prop :=
  ∃ dir name, place = [dir, name] ∧ dir ≠ folder

namespace Plan
variable {d d' : Disk} {base top folder dir : String} {B : Place} {r : Except ExportError Unit}
  {plan : Plan}

theorem Records.besides (records : plan.Records dir) (other : dir ≠ folder) :
    plan.Fits (Besides folder) := by
  intro a member names filled
  cases records a member with
  | record known =>
    unfold Action.record at filled
    split at filled
    · cases filled
      exact ⟨_, _, rfl, other⟩
    · cases filled
  | fail e => cases filled

theorem rulesPlan_besides (rules : Rules) (legacy : LegacyRules) (other : "rules2" ≠ folder)
    (other' : "rules" ≠ folder) : (Roster.rulesPlan rules legacy).Fits (Besides folder) := by
  intro a member names filled
  simp only [Roster.rulesPlan, List.mem_cons, List.not_mem_nil, or_false] at member
  rcases member with rfl | rfl
  · cases filled
    exact ⟨_, _, rfl, other⟩
  · cases legacy
    all_goals
      cases filled
      exact ⟨_, _, rfl, other'⟩

theorem run_besides (leads : d.Leads base B) (c : IsComponent top) (sound : plan.Sound)
    (fits : plan.Fits (Besides folder)) (ran : plan.run (join base top) d = (r, d')) (t : Place) :
    d'.get? (B ++ top :: folder :: t) = d.get? (B ++ top :: folder :: t) := by
  induction plan generalizing d with
  | nil =>
    cases ran
    rfl
  | cons a rest ih =>
    have soundFirst := fun names => sound a (by simp) names
    have first : ∀ r e, a.run (join base top) d = (r, e) →
        e.get? (B ++ top :: folder :: t) = d.get? (B ++ top :: folder :: t) := by
      intro r e done
      rcases Action.run_exports leads c soundFirst done with rfl | ⟨names, last, _, filled, exports⟩
      · rfl
      obtain ⟨dir, name, spelled, other⟩ := fits a (by simp) _ filled
      have parts : names ++ [last] = [dir] ++ [name] := spelled
      obtain ⟨rfl, _⟩ := List.append_inj' parts rfl
      refine (exports.others _ ?_ ?_).resolve_right ?_
      · simp [Ne.symm other]
      · simp [Ne.symm other]
      · rintro ⟨_, _, s, _, inside, same⟩
        obtain rfl := List.append_cancel_left same
        simp [List.cons_prefix_cons, Ne.symm other] at inside
    simp only [run] at ran
    split at ran
    · rename_i e done
      have works := Action.run_worksIn leads c soundFirst done
      rw [ih (leads.kept works.keeps) (fun b member => sound b (List.mem_cons_of_mem _ member))
        (fun b member => fits b (List.mem_cons_of_mem _ member)) ran, first _ _ done]
    · exact first _ _ ran

end Plan

/-! ### Steps with certificates -/

namespace Exporter
open Plan Roster

def certificatesName : String := "entitlement_certificates"

def metadata (x : Exporter) (now : Moment) : Scope → Meta
  | .full cdn _ _ => ⟨x.settings.version, now, x.principal, none, cdn⟩
  | .certificates _ => ⟨x.settings.version, now, x.principal, none, none⟩

def certificateFilter (x : Exporter) : Scope → CertificateFilter
  | .full _ _ _ => ⟨none, some x.rules⟩
  | .certificates serials => ⟨serials, none⟩

def certificateSteps (x : Exporter) (consumer : Consumer) (es : List Entitlement) (now : Moment) :
    Scope → Plan.Steps
  | .full cdn web api => [
    ("meta.json", metaPlan (x.metadata now (.full cdn web api))),
    ("consumer.json", consumerPlan (.ofConsumer consumer (resolveUrl web x.settings.prefixWebUrl)
      (resolveUrl api x.settings.prefixApiUrl))),
    ("upstream_consumer", identityPlan consumer.idCert),
    ("entitlements", entitlementsPlan x.rules es),
    (certificatesName, certificatesPlan ⟨none, some x.rules⟩ es)]
  | .certificates serials => [
    ("meta.json", metaPlan (x.metadata now (.certificates serials))),
    (certificatesName, certificatesPlan ⟨serials, none⟩ es),
    ("content_access_certificates", onLookup (loading "content access certificate")
      (x.source.contentAccessCertificate consumer) contentAccessPlan)]

def laterPlan (x : Exporter) (consumer : Consumer) (es : List Entitlement) : Scope → Plan
  | .full _ _ _ =>
    productsPlan x.source consumer.ownerKey es ++
      onLookup (loading "consumer types") x.source.consumerTypes consumerTypesPlan ++
      onLookup (loading "rules") x.source.rules
        (rulesPlan · (.ofOverride x.settings.legacyRulesPath)) ++
      onLookup (loading "distributor versions") x.source.distributorVersions
        distributorVersionsPlan ++
      onLookup (loading "content delivery networks") x.source.cdns cdnsPlan
  | .certificates _ => []

section
variable {x : Exporter} {consumer : Consumer} {scope : Scope} {now : Moment} {names : List String}
  {d d' opened mid : Disk} {area : String} {A place : Place} {es : List Entitlement}
  {bytes : ByteArray} {r : Except ExportError String} {serials : Serials}

theorem plan_eq_certificateSteps (x : Exporter) (consumer : Consumer) (es : List Entitlement)
    (now : Moment) (scope : Scope) : x.plan consumer es now scope =
      (x.certificateSteps consumer es now scope).flatMap Prod.snd ++
        x.laterPlan consumer es scope := by
  cases scope <;> simp [plan, certificateSteps, laterPlan, metadata]

theorem certificateSteps_apart (x : Exporter) (consumer : Consumer) (es : List Entitlement)
    (now : Moment) (scope : Scope) : Apart (x.certificateSteps consumer es now scope) := by
  cases scope with
  | full cdn web api =>
    refine ⟨?_, by simp [certificateSteps, certificatesName]⟩
    simp only [certificateSteps, List.forall_mem_cons, List.not_mem_nil, false_imp_iff, implies_true,
      and_true]
    exact ⟨metaPlan_fills _, consumerPlan_fills _, identityPlan_fills _, entitlementsPlan_fills _ _,
      certificatesPlan_fills _ _⟩
  | certificates serials =>
    refine ⟨?_, by simp [certificateSteps, certificatesName]⟩
    simp only [certificateSteps, List.forall_mem_cons, List.not_mem_nil, false_imp_iff, implies_true,
      and_true]
    exact ⟨metaPlan_fills _, certificatesPlan_fills _ _, fills_onLookup contentAccessPlan_fills⟩

theorem laterPlan_besides (x : Exporter) (consumer : Consumer) (es : List Entitlement)
    (scope : Scope) : (x.laterPlan consumer es scope).Fits (Besides certificatesName) := by
  cases scope with
  | full cdn web api =>
    simp only [laterPlan, fits_append, and_assoc]
    exact ⟨(productsPlan_records _ _ _).besides (by decide),
      fits_onLookup fun ts => (consumerTypesPlan_records ts).besides (by decide),
      fits_onLookup fun rules => rulesPlan_besides rules _ (by decide) (by decide),
      fits_onLookup fun vs => (distributorVersionsPlan_records vs).besides (by decide),
      fits_onLookup fun cs => (cdnsPlan_records cs).besides (by decide)⟩
  | certificates serials => nofun

/-- An export gets past the steps that write certificates: `mid` is the disk after them. -/
structure PastCertificates (x : Exporter) (consumer : Consumer) (scope : Scope) (now : Moment)
    (names : List String) (d : Disk) (area : String) (es : List Entitlement) (opened mid : Disk) :
    Prop where
  opens : openArea d x.settings.workDir names = (.ok area, opened)
  listed : x.source.entitlements consumer = .ok es
  ran : Plan.run (join area treeName) opened
    ((x.certificateSteps consumer es now scope).flatMap Prod.snd) = (.ok (), mid)

theorem run_leaves (single : '/' ∉ consumer.uuid.toList)
    (opens : openArea d x.settings.workDir names = (.ok area, opened))
    (fresh : Opened d x.settings.workDir names area A opened)
    (listed : x.source.entitlements consumer = .ok es)
    (ran : x.run consumer scope now names d = (r, d')) :
    ∃ r' filled, (x.plan consumer es now scope).run (join area treeName) opened = (r', filled) ∧
      filled.Keeps d' ∧ ∀ t, d'.get? (A ++ treeName :: t) = filled.get? (A ++ treeName :: t) := by
  simp only [run, opens, listed] at ran
  split at ran
  · rename_i filled stuck
    cases ran
    exact ⟨_, _, stuck, .refl _, fun _ => rfl⟩
  rename_i filled through
  have works := run_worksIn fresh.leads treeName_component (x.plan_sound consumer es now scope) through
  obtain ⟨keeps, changes⟩ := package_changes single ran
  refine ⟨_, _, through, keeps, fun t => (changes _).resolve_right ?_⟩
  rintro ⟨W, work, inner | outer⟩
  · obtain rfl := work.unique (fresh.leads.kept works.keeps)
    simpa [treeName, innerName] using List.append_cancel_left inner
  · obtain rfl := work.unique (fresh.leads.kept works.keeps)
    have same := (List.cons.inj (List.append_cancel_left outer)).1
    exact signedFileName_ne_treeName _ _ same.symm

namespace PastCertificates
variable (past : x.PastCertificates consumer scope now names d area es opened mid)
  (fresh : Opened d x.settings.workDir names area A opened) (grounded : d.Grounded)
include past

theorem leaves (single : '/' ∉ consumer.uuid.toList)
    (fresh : Opened d x.settings.workDir names area A opened)
    (ran : x.run consumer scope now names d = (r, d')) :
    ∃ r' filled, (x.laterPlan consumer es scope).run (join area treeName) mid = (r', filled) ∧
      filled.Keeps d' ∧ ∀ t, d'.get? (A ++ treeName :: t) = filled.get? (A ++ treeName :: t) := by
  obtain ⟨r', filled, fill, rest⟩ := run_leaves single past.opens fresh past.listed ran
  rw [plan_eq_certificateSteps, run_append, past.ran] at fill
  exact ⟨r', filled, fill, rest⟩

include fresh

theorem leads : mid.Leads area A :=
  fresh.leads.kept (run_worksIn fresh.leads treeName_component
    (x.certificateSteps_apart consumer es now scope).sound past.ran).keeps

include grounded

theorem timber : mid.Timber (A ++ [treeName]) :=
  fresh.timber grounded (Opened.grounded grounded past.opens)
    (x.certificateSteps_apart consumer es now scope).sound past.ran

theorem file_iff : mid.get? (A ++ treeName :: place) = some (.file bytes) ↔
    ∃ s ∈ x.certificateSteps consumer es now scope, IsLast Prod.fst s.2.writes (place, bytes) := by
  have apart := x.certificateSteps_apart consumer es now scope
  have tree := run_tree fresh.leads treeName_component apart.sound apart.direct past.ran
    (fresh.tree_empty grounded) (by simp) place bytes
  rw [List.nil_append, apart.isLast] at tree
  simpa using tree

theorem metadata_held : mid.get? (A ++ [treeName, "meta.json"]) =
    some (.file (Meta.layout.json (x.metadata now scope)).sorted.text.toUTF8) := by
  refine (past.file_iff fresh grounded).mpr ⟨("meta.json", metaPlan (x.metadata now scope)), ?_, ?_⟩
  · cases scope <;> simp [certificateSteps]
  · rw [← json_bytes]
    exact isLast_singleton.mpr rfl

theorem tree_leads : mid.Leads (join area treeName) (A ++ [treeName]) := by
  refine (past.leads fresh).join treeName_component (by decide) (isDirAt_iff.mpr ?_)
  have root := ((past.timber fresh grounded) []).2.mpr ⟨["meta.json"], _, by simp,
    by simpa using past.metadata_held fresh grounded⟩
  simpa using root

theorem certificate_iff :
    mid.get? (A ++ treeName :: certificatesName :: place) = some (.file bytes) ↔
      ∃ c, IsLast (fun c : Certificate => c.serial.id) ((x.certificateFilter scope).select es) c ∧
        place = [toString c.serial.id.toNat ++ ".pem"] ∧ bytes = (c.cert ++ c.key).toUTF8 := by
  have step : (certificatesName, certificatesPlan (x.certificateFilter scope) es) ∈
      x.certificateSteps consumer es now scope := by
    cases scope <;> simp [certificateSteps, certificateFilter]
  have clean := Clean.step (run_clean past.ran) step
  have apart := x.certificateSteps_apart consumer es now scope
  rw [past.file_iff fresh grounded, ← apart.isLast, apart.isLast_inside step rfl]
  refine (records_isLast clean).trans (exists_congr fun c => ?_)
  rw [isLast_serial, pair_bytes]
  simp [recordFile, certificatesName, String.append_assoc]

end PastCertificates

theorem PastCertificates.tree_kept {serials : Option Serials} (single : '/' ∉ consumer.uuid.toList)
    (past : x.PastCertificates consumer (.certificates serials) now names d area es opened mid)
    (fresh : Opened d x.settings.workDir names area A opened)
    (ran : x.run consumer (.certificates serials) now names d = (r, d')) :
    mid.Keeps d' ∧ ∀ t, d'.get? (A ++ treeName :: t) = mid.get? (A ++ treeName :: t) := by
  obtain ⟨_, filled, fill, rest⟩ := past.leaves single fresh ran
  cases fill
  exact rest

theorem PastCertificates.certificates_kept (single : '/' ∉ consumer.uuid.toList)
    (past : x.PastCertificates consumer scope now names d area es opened mid)
    (fresh : Opened d x.settings.workDir names area A opened)
    (ran : x.run consumer scope now names d = (r, d')) :
    mid.Keeps d' ∧ ∀ t, d'.get? (A ++ treeName :: certificatesName :: t) =
      mid.get? (A ++ treeName :: certificatesName :: t) := by
  obtain ⟨_, filled, fill, keeps, same⟩ := past.leaves single fresh ran
  have sound : (x.laterPlan consumer es scope).Sound := by
    have whole := x.plan_sound consumer es now scope
    rw [plan_eq_certificateSteps] at whole
    exact (sound_append.mp whole).2
  have leads := past.leads fresh
  have works := run_worksIn leads treeName_component sound fill
  refine ⟨works.keeps.trans keeps, fun t => ?_⟩
  rw [same, run_besides leads treeName_component sound (x.laterPlan_besides consumer es scope) fill]

end

/-! ### Picking by serial -/

section
variable {x : Exporter} {consumer : Consumer} {now now' : Moment} {names names' : List String}
  {d d' e e' opened opened' mid mid' : Disk} {area area' : String} {A B place : Place}
  {es es' : List Entitlement} {bytes : ByteArray} {r r' : Except ExportError String}
  {serials : Serials}

theorem select_unruled (chosen : Option Serials) (es : List Entitlement) :
    CertificateFilter.select ⟨chosen, none⟩ es = es.flatMap fun e =>
      e.certificates.filter fun c => chosen.all (·.contains c.serial.id) := by
  have all : CertificateFilter.allowsEntitlement ⟨chosen, none⟩ = fun _ => true := rfl
  simp [CertificateFilter.select, all, CertificateFilter.allowsSerial]

theorem select_serials (serials : Serials) (es : List Entitlement) :
    CertificateFilter.select ⟨some serials, none⟩ es =
      (CertificateFilter.select ⟨none, none⟩ es).filter fun c => serials.contains c.serial.id := by
  simp [select_unruled, List.filter_flatMap]

/-- Of the certificates in another tree a tree has those with given serials, and otherwise the two are
the same but for the time when they were made. -/
structure Picks (serials : Serials) (d : Disk) (T : Place) (e : Disk) (U : Place) : Prop where
  timber : d.Timber T ∧ e.Timber U
  certificates : ∀ place bytes, d.get? (T ++ certificatesName :: place) = some (.file bytes) ↔
    (∃ serial, serials.contains serial = true ∧ place = [toString serial.toNat ++ ".pem"]) ∧
      e.get? (U ++ certificatesName :: place) = some (.file bytes)
  others : ∀ place, place.head? ≠ some certificatesName → place ≠ ["meta.json"] →
    d.get? (T ++ place) = e.get? (U ++ place)
  metadata : ∃ (info : Meta) (created : Moment),
    d.get? (T ++ ["meta.json"]) = some (.file (Meta.layout.json info).sorted.text.toUTF8) ∧
      e.get? (U ++ ["meta.json"]) =
        some (.file (Meta.layout.json { info with created }).sorted.text.toUTF8)

theorem Picks.none_of_empty {T U : Place} (picks : Picks serials d T e U)
    (empty : ∀ serial, serials.contains serial = false) (place : Place) :
    d.get? (T ++ certificatesName :: place) = none := by
  have unfilled : ∀ place bytes,
      d.get? (T ++ certificatesName :: place) ≠ some (.file bytes) := fun place bytes held => by
    obtain ⟨⟨serial, contained, _⟩, _⟩ := (picks.certificates place bytes).mp held
    simp [empty] at contained
  obtain ⟨unlinked, dir⟩ := picks.timber.1 (certificatesName :: place)
  cases stands : d.get? (T ++ certificatesName :: place) with
  | none => rfl
  | some n =>
    cases n with
    | file bytes => exact absurd stands (unfilled place bytes)
    | dir =>
      obtain ⟨more, bytes, _, held⟩ := dir.mp stands
      exact absurd held (unfilled (place ++ more) bytes)
    | link => exact absurd stands unlinked

theorem PastCertificates.other_iff {serials : Option Serials}
    (past : x.PastCertificates consumer (.certificates serials) now names d area es opened mid)
    (fresh : Opened d x.settings.workDir names area A opened) (grounded : d.Grounded)
    (outside : place.head? ≠ some certificatesName) (dated : place ≠ ["meta.json"]) :
    mid.get? (A ++ treeName :: place) = some (.file bytes) ↔
      IsLast Prod.fst (writes (onLookup (loading "content access certificate")
        (x.source.contentAccessCertificate consumer) contentAccessPlan)) (place, bytes) := by
  rw [past.file_iff fresh grounded]
  simp only [certificateSteps, List.mem_cons, List.not_mem_nil, or_false, exists_eq_or_imp,
    exists_eq_left]
  constructor
  · rintro (first | second | third)
    · cases isLast_singleton.mp first
      exact absurd rfl dated
    · exact absurd ((certificatesPlan_fills _ _).inside second.mem) outside
    · exact third
  · exact fun third => .inr (.inr third)

theorem picks_of_past (fresh : Opened d x.settings.workDir names area A opened)
    (fresh' : Opened e x.settings.workDir names' area' B opened') (grounded : d.Grounded)
    (grounded' : e.Grounded)
    (past : x.PastCertificates consumer (.certificates (some serials)) now names d area es opened mid)
    (past' : x.PastCertificates consumer (.certificates none) now' names' e area' es' opened' mid') :
    Picks serials mid (A ++ [treeName]) mid' (B ++ [treeName]) where
  timber := ⟨past.timber fresh grounded, past'.timber fresh' grounded'⟩
  certificates place bytes := by
    obtain rfl := Except.ok.inj (past.listed.symm.trans past'.listed)
    simp only [List.append_assoc, List.singleton_append]
    rw [past.certificate_iff fresh grounded, past'.certificate_iff fresh' grounded']
    simp only [certificateFilter, select_serials]
    have byKey : ∀ a b : Certificate, a.serial.id = b.serial.id →
        serials.contains a.serial.id = serials.contains b.serial.id := fun a b same => by rw [same]
    constructor
    · rintro ⟨c, last, rfl, rfl⟩
      obtain ⟨last, contained⟩ := (isLast_filter byKey).mp last
      exact ⟨⟨c.serial.id, contained, rfl⟩, c, last, rfl, rfl⟩
    · rintro ⟨⟨serial, contained, spelled⟩, c, last, rfl, rfl⟩
      obtain rfl : c.serial.id = serial := stem_inj.mp (by simpa using spelled)
      exact ⟨c, (isLast_filter byKey).mpr ⟨last, contained⟩, rfl, rfl⟩
  others place outside dated := by
    cases place with
    | nil =>
      -- the root is above both, and a directory in any case
      simpa using ((isDirAt_iff.mp (past.tree_leads fresh grounded).2).trans
        (isDirAt_iff.mp (past'.tree_leads fresh' grounded').2).symm)
    | cons s t =>
      refine (past.timber fresh grounded).get?_eq (past'.timber fresh' grounded') fun more bytes => ?_
      have undated : s :: t ++ more ≠ ["meta.json"] := by
        intro whole
        simp only [List.cons_append, List.cons.injEq, List.append_eq_nil_iff] at whole
        exact dated (by simp [whole])
      have beside : (s :: t ++ more).head? ≠ some certificatesName := outside
      simp only [List.append_assoc, List.singleton_append]
      rw [past.other_iff fresh grounded beside undated, past'.other_iff fresh' grounded' beside undated]
  metadata := ⟨x.metadata now (.certificates (some serials)), now',
    by simpa using past.metadata_held fresh grounded,
    by simpa [metadata] using past'.metadata_held fresh' grounded'⟩

theorem Picks.kept {T U : Place} (picks : Picks serials d T e U)
    (same : ∀ t, d'.get? (T ++ t) = d.get? (T ++ t))
    (same' : ∀ t, e'.get? (U ++ t) = e.get? (U ++ t)) : Picks serials d' T e' U where
  timber := ⟨fun t => by simpa only [same] using picks.timber.1 t,
    fun t => by simpa only [same'] using picks.timber.2 t⟩
  certificates := by simpa only [same, same'] using picks.certificates
  others := by simpa only [same, same'] using picks.others
  metadata := by simpa only [same, same'] using picks.metadata

/-! ### Dirty flags and rules -/

def settled (e : Entitlement) : Entitlement := { e with dirty := false }

theorem select_settled (chosen : Option Serials) (es : List Entitlement) :
    CertificateFilter.select ⟨chosen, none⟩ (es.map settled) =
      CertificateFilter.select ⟨chosen, none⟩ es := by
  simp only [select_unruled, List.flatMap_map]
  rfl

theorem plan_settled (x : Exporter) (consumer : Consumer) (es : List Entitlement) (now : Moment)
    (chosen : Option Serials) : x.plan consumer es now (.certificates chosen) =
      x.plan consumer (es.map settled) now (.certificates chosen) := by
  simp only [plan, certificatesPlan, select_settled]

theorem run_congr {y : Exporter} {scope : Scope} (settings : y.settings = x.settings)
    (signer : y.signer = x.signer)
    (plans : (y.source.entitlements consumer).map (y.plan consumer · now scope) =
      (x.source.entitlements consumer).map (x.plan consumer · now scope)) (names : List String)
    (d : Disk) : y.run consumer scope now names d = x.run consumer scope now names d := by
  simp only [run, settings, signer]
  rcases openArea d x.settings.workDir names with ⟨_ | area, opened⟩
  · rfl
  cases listed : x.source.entitlements consumer with
  | error cause =>
    cases listed' : y.source.entitlements consumer with
    | error cause' =>
      rw [listed, listed'] at plans
      cases plans
      rfl
    | ok es' =>
      rw [listed, listed'] at plans
      cases plans
  | ok es =>
    cases listed' : y.source.entitlements consumer with
    | error cause' =>
      rw [listed, listed'] at plans
      cases plans
    | ok es' =>
      rw [listed, listed'] at plans
      have same : y.plan consumer es' now scope = x.plan consumer es now scope := Except.ok.inj plans
      simp only [same]

theorem certificates_unruled (rules : ExportRules)
    {other : Consumer → Except String (List Entitlement)}
    (alike : (x.source.entitlements consumer).map (List.map settled) =
      (other consumer).map (List.map settled)) (chosen : Option Serials) (now : Moment)
    (names : List String) (d : Disk) :
    ({ x.withEntitlements other with rules }).run consumer (.certificates chosen) now names d =
      x.run consumer (.certificates chosen) now names d := by
  have plans : ∀ result : Except String (List Entitlement),
      result.map (x.plan consumer · now (.certificates chosen)) =
        (result.map (List.map settled)).map (x.plan consumer · now (.certificates chosen)) := by
    rintro (cause | es)
    · rfl
    · exact congrArg Except.ok (x.plan_settled consumer es now chosen)
  refine run_congr (x := x) (y := { x.withEntitlements other with rules }) rfl rfl ?_ names d
  rw [plans (x.source.entitlements consumer), alike]
  exact plans (other consumer)

/-! ### Full exports -/

theorem select_accepting {rules : ExportRules} {es : List Entitlement}
    (accepted : ∀ f ∈ es, rules f = true) :
    CertificateFilter.select ⟨none, some rules⟩ es = CertificateFilter.select ⟨none, none⟩ es := by
  rw [select_accepted, select_unruled, List.filter_eq_self.mpr accepted]
  simp

theorem certificates_of_past {cdn web api : Option String}
    (fresh : Opened d x.settings.workDir names area A opened)
    (fresh' : Opened e x.settings.workDir names' area' B opened') (grounded : d.Grounded)
    (grounded' : e.Grounded) (accepted : ∀ f ∈ es, x.rules f = true)
    (past : x.PastCertificates consumer (.full cdn web api) now names d area es opened mid)
    (past' : x.PastCertificates consumer (.certificates none) now' names' e area' es' opened' mid')
    (place : Place) : mid.get? (A ++ treeName :: certificatesName :: place) =
      mid'.get? (B ++ treeName :: certificatesName :: place) := by
  obtain rfl := Except.ok.inj (past.listed.symm.trans past'.listed)
  have same := (past.timber fresh grounded).get?_eq (past'.timber fresh' grounded')
    (t := certificatesName :: place) fun more bytes => by
      simp only [List.append_assoc, List.cons_append, List.nil_append]
      rw [past.certificate_iff fresh grounded, past'.certificate_iff fresh' grounded']
      simp only [certificateFilter, select_accepting accepted]
  simpa using same

/-! ### All paths -/

/-- A run that gets past the steps that write certificates, whatever becomes of the rest of it. -/
structure RunsPast (x : Exporter) (consumer : Consumer) (scope : Scope) (now : Moment)
    (names : List String) (d : Disk) (area : String) (d' : Disk) : Prop where
  past : ∃ es opened mid, x.PastCertificates consumer scope now names d area es opened mid
  ran : ∃ r, x.run consumer scope now names d = (r, d')

theorem runsPast_of_ok {scope : Scope} {path : String}
    (ran : x.run consumer scope now names d = (.ok path, d')) :
    ∃ area, x.RunsPast consumer scope now names d area d' := by
  obtain ⟨area, _, _, es, opened, _, _, _, f⟩ := run_finished ran
  have whole := f.ran
  rw [plan_eq_certificateSteps] at whole
  obtain ⟨mid, first, _⟩ := run_append_ok.mp whole
  exact ⟨area, ⟨es, opened, mid, f.opens, f.listed, first⟩, _, ran⟩

/- Exports of certificates alone pick by serial and nothing else, and full exports whose rules accept all
   entitlements write the same certificates. -/
theorem certificate_paths_agree (single : '/' ∉ consumer.uuid.toList) :
    (∀ {serials : Serials} {now now' : Moment} {names names' : List String} {d d' e e' : Disk}
      {area area' : String}, d.Grounded → e.Grounded →
      x.RunsPast consumer (.certificates (some serials)) now names d area d' →
      x.RunsPast consumer (.certificates none) now' names' e area' e' →
      ∃ T U, d'.Leads (join area treeName) T ∧ e'.Leads (join area' treeName) U ∧
        Picks serials d' T e' U ∧ ((∀ serial, serials.contains serial = false) →
          ∀ place, d'.get? (T ++ certificatesName :: place) = none)) ∧
    (∀ (rules : ExportRules) (other : Consumer → Except String (List Entitlement)),
      (x.source.entitlements consumer).map (List.map settled) =
        (other consumer).map (List.map settled) →
      ∀ chosen now names d,
        ({ x.withEntitlements other with rules }).run consumer (.certificates chosen) now names d =
          x.run consumer (.certificates chosen) now names d) ∧
    ((∀ es, x.source.entitlements consumer = .ok es → ∀ f ∈ es, x.rules f = true) →
      ∀ {cdn web api : Option String} {now now' : Moment} {names names' : List String}
        {d d' e e' : Disk} {area area' : String}, d.Grounded → e.Grounded →
        x.RunsPast consumer (.full cdn web api) now names d area d' →
        x.RunsPast consumer (.certificates none) now' names' e area' e' →
        ∃ T U, d'.Leads (join area treeName) T ∧ e'.Leads (join area' treeName) U ∧
          ∀ place, d'.get? (T ++ certificatesName :: place) =
            e'.get? (U ++ certificatesName :: place)) := by
  refine ⟨?_, fun rules other alike => certificates_unruled rules alike, ?_⟩
  · rintro serials now now' names names' d d' e e' area area' grounded grounded'
      ⟨⟨es, opened, mid, past⟩, _, ran⟩ ⟨⟨es', opened', mid', past'⟩, _, ran'⟩
    obtain ⟨A, fresh⟩ := openArea_opens past.opens
    obtain ⟨B, fresh'⟩ := openArea_opens past'.opens
    obtain ⟨keeps, same⟩ := past.tree_kept single fresh ran
    obtain ⟨keeps', same'⟩ := past'.tree_kept single fresh' ran'
    have picks := (picks_of_past fresh fresh' grounded grounded' past past').kept
      (fun t => by simpa using same t) (fun t => by simpa using same' t)
    exact ⟨A ++ [treeName], B ++ [treeName], (past.tree_leads fresh grounded).kept keeps,
      (past'.tree_leads fresh' grounded').kept keeps', picks, picks.none_of_empty⟩
  · rintro accepting cdn web api now now' names names' d d' e e' area area' grounded grounded'
      ⟨⟨es, opened, mid, past⟩, _, ran⟩ ⟨⟨es', opened', mid', past'⟩, _, ran'⟩
    obtain ⟨A, fresh⟩ := openArea_opens past.opens
    obtain ⟨B, fresh'⟩ := openArea_opens past'.opens
    obtain ⟨keeps, same⟩ := past.certificates_kept single fresh ran
    obtain ⟨keeps', same'⟩ := past'.certificates_kept single fresh' ran'
    refine ⟨A ++ [treeName], B ++ [treeName], (past.tree_leads fresh grounded).kept keeps,
      (past'.tree_leads fresh' grounded').kept keeps', fun place => ?_⟩
    simp only [List.append_assoc, List.singleton_append]
    rw [same, same', certificates_of_past fresh fresh' grounded grounded'
      (accepting es past.listed) past past']

end

def twoCertificates (dirty : Bool) : Entitlement where
  id := "e1"
  quantity := 1
  certificates := [.ofSerial 7 "CERT 7\n" "KEY\n", .ofSerial 8 "CERT 8\n" "KEY\n"]
  pool := { id := "p1", quantity := 5, product := { id := "69", name := "OS" } }
  dirty

def certificateExporter : Exporter :=
  { sampleExporter with source := { sampleSource with entitlements := fun _ => .ok [twoCertificates false] } }

def holds (d : Disk) (path : String) : Bool := (d.content path).isOk

/- Of the serials 7 and 8 the one that is asked for is kept and the other one is not. Neither rules that
   let nothing pass nor a dirty entitlement change what is written, and a full export writes both. -/
theorem certificate_paths_agree_sample : '/' ∉ sampleConsumer.uuid.toList ∧
    ∃ area area' area'' d' e' f' T U V,
      certificateExporter.RunsPast sampleConsumer (.certificates (some (Serials.ofList [8]))) sampleMoment
        ["a"] sampleDisk area d' ∧
      certificateExporter.RunsPast sampleConsumer (.certificates none) sampleMoment ["b"] sampleDisk area'
        e' ∧
      certificateExporter.RunsPast sampleConsumer (.full none none none) sampleMoment ["c"] sampleDisk area''
        f' ∧
      d'.Leads (join area treeName) T ∧ e'.Leads (join area' treeName) U ∧ f'.Leads (join area'' treeName) V ∧
      holds e' "/w/b/export/entitlement_certificates/7.pem" = true ∧
      holds d' "/w/a/export/entitlement_certificates/7.pem" = false ∧
      holds d' "/w/a/export/entitlement_certificates/8.pem" = true ∧
      Picks (Serials.ofList [8]) d' T e' U ∧
      (∀ place, f'.get? (V ++ certificatesName :: place) = e'.get? (U ++ certificatesName :: place)) ∧
      ({ certificateExporter.withEntitlements fun _ => .ok [twoCertificates true] with
          rules := fun _ => false }).run sampleConsumer (.certificates none) sampleMoment ["b"] sampleDisk =
        (.ok "/w/b/c1-export.zip", e') := by
  have single : '/' ∉ sampleConsumer.uuid.toList := by decide
  obtain ⟨d', ran, sorted⟩ := answered_with (r := certificateExporter.run sampleConsumer
      (.certificates (some (Serials.ofList [8]))) sampleMoment ["a"] sampleDisk) (a := "/w/a/c1-export.zip")
    (fun d => !holds d "/w/a/export/entitlement_certificates/7.pem" &&
      holds d "/w/a/export/entitlement_certificates/8.pem") (by decide +kernel)
  obtain ⟨dropped, kept⟩ := Bool.and_eq_true_iff.mp sorted
  obtain ⟨e', ran', whole⟩ := answered_with (r := certificateExporter.run sampleConsumer
      (.certificates none) sampleMoment ["b"] sampleDisk) (a := "/w/b/c1-export.zip")
    (fun d => holds d "/w/b/export/entitlement_certificates/7.pem") (by decide +kernel)
  obtain ⟨f', ran''⟩ : ∃ f', certificateExporter.run sampleConsumer (.full none none none) sampleMoment ["c"]
      sampleDisk = (.ok "/w/c/c1-export.zip", f') := answered (by decide +kernel)
  obtain ⟨area, past⟩ := runsPast_of_ok ran
  obtain ⟨area', past'⟩ := runsPast_of_ok ran'
  obtain ⟨area'', past''⟩ := runsPast_of_ok ran''
  obtain ⟨picking, unruled, full⟩ := certificate_paths_agree (x := certificateExporter) single
  obtain ⟨T, U, leads, leads', picks, _⟩ := picking sampleDisk_grounded sampleDisk_grounded past past'
  have accepting : ∀ es, certificateExporter.source.entitlements sampleConsumer = .ok es →
      ∀ f ∈ es, certificateExporter.rules f = true := by
    rintro es listed f member
    cases listed
    rw [List.mem_singleton.mp member]
    rfl
  obtain ⟨V, U', leads'', again, same⟩ := full accepting sampleDisk_grounded sampleDisk_grounded past'' past'
  obtain rfl := again.unique leads'
  have settles := unruled (fun _ => false) (fun _ => .ok [twoCertificates true]) rfl none sampleMoment ["b"]
    sampleDisk
  exact ⟨single, area, area', area'', d', e', f', T, U', V, past, past', past'', leads, leads', leads'', whole,
    by simpa using dropped, kept, picks, same, settles.trans ran'⟩

end Exporter
end SignedManifest
