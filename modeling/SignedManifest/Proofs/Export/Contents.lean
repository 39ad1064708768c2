import SignedManifest.Proofs.Export.Completed
import SignedManifest.Proofs.Export.Sections

/-!
What a full export that succeeds leaves in its tree: exactly the files that its records call for,
each with the text of its record.
-/
namespace SignedManifest.Exporter
open SignedManifest.Path Disk Roster

/-! ### The files of a full export -/

structure Lookups where
  entitlements : List Entitlement
  consumerTypes : List ConsumerType
  rules : Rules
  legacyRules : String
  distributorVersions : List DistributorVersion
  cdns : List Cdn

/-- The text that stands in for the legacy rules: the bundled one, or that of a file. -/
def IsLegacyText (path : Option String) (d : Disk) (text : String) : Prop :=
  match path with
  | none => text = LegacyRules.bundledText
  | some path => d.contentText path = .ok text

/-- The lookups answer so, the legacy rules being read from a disk. -/
structure Finds (x : Exporter) (consumer : Consumer) (d : Disk) (l : Lookups) : Prop where
  entitlements : x.source.entitlements consumer = .ok l.entitlements
  consumerTypes : x.source.consumerTypes = .ok l.consumerTypes
  rules : x.source.rules = .ok l.rules
  legacyRules : IsLegacyText x.settings.legacyRulesPath d l.legacyRules
  distributorVersions : x.source.distributorVersions = .ok l.distributorVersions
  cdns : x.source.cdns = .ok l.cdns

/-- The files of a full export, each with its text. Where records share the attribute that their
files are named after, the last of them has the file. -/
inductive FullFile (x : Exporter) (consumer : Consumer) (cdn web api : Option String) (now : Moment)
    (l : Lookups) : Place → String → Prop where
  | metadata : FullFile x consumer cdn web api now l ["meta.json"]
      (Meta.layout.json ⟨x.settings.version, now, x.principal, none, cdn⟩).sorted.text
  | consumer : FullFile x consumer cdn web api now l ["consumer.json"]
      (ConsumerRecord.layout.json (.ofConsumer consumer (resolveUrl web x.settings.prefixWebUrl)
        (resolveUrl api x.settings.prefixApiUrl))).sorted.text
  | identity {c : Certificate} (has : consumer.idCert = some c) :
      FullFile x consumer cdn web api now l
        (recordFile "upstream_consumer" (toString c.serial.id.toNat) "json")
        (Certificate.layout.json c).sorted.text
  | entitlement {e : Entitlement} (last : IsLast Entitlement.id (l.entitlements.filter x.rules) e) :
      FullFile x consumer cdn web api now l (recordFile "entitlements" e.id "json")
        (Entitlement.layout.json e).sorted.text
  | certificate {c : Certificate}
      (last : IsLast (fun c : Certificate => c.serial.id)
        ((l.entitlements.filter x.rules).flatMap Entitlement.certificates) c) :
      FullFile x consumer cdn web api now l
        (recordFile "entitlement_certificates" (toString c.serial.id.toNat) "pem") (c.cert ++ c.key)
  | product {p : Product} (reached : (productClosure l.entitlements).get? p.id = some p) :
      FullFile x consumer cdn web api now l (recordFile "products" p.id "json") p.json.sorted.text
  | productCertificate {p : Product} {c : ProductCertificate}
      (reached : (productClosure l.entitlements).get? p.id = some p) (filled : p.id ≠ "")
      (digits : ∀ x ∈ p.id.toList, '0' ≤ x ∧ x ≤ '9')
      (issued : x.source.productCertificate consumer.ownerKey p.id = .ok (some c)) :
      FullFile x consumer cdn web api now l (recordFile "products" p.id "pem") c.cert
  | consumerType {t : ConsumerType} (last : IsLast ConsumerType.label l.consumerTypes t) :
      FullFile x consumer cdn web api now l (recordFile "consumer_types" t.label "json")
        (ConsumerType.layout.json t).sorted.text
  | rules : FullFile x consumer cdn web api now l ["rules2", "rules.js"] l.rules.rules
  | legacyRules :
      FullFile x consumer cdn web api now l ["rules", "default-rules.js"] l.legacyRules
  | distributorVersion {v : DistributorVersion}
      (last : IsLast DistributorVersion.name l.distributorVersions v) :
      FullFile x consumer cdn web api now l (recordFile "distributor_version" v.name "json")
        (DistributorVersion.layout.json v).sorted.text
  | cdn {c : Cdn} (last : IsLast Cdn.label l.cdns c) :
      FullFile x consumer cdn web api now l (recordFile "content_delivery_network" c.label "json")
        (Cdn.layout.json c).sorted.text

/-! ### The steps of a full export -/

section
variable (x : Exporter) (consumer : Consumer) (cdn web api : Option String) (now : Moment)

def stepsBefore (l : Lookups) : Plan.Steps :=
  [("meta.json", metaPlan ⟨x.settings.version, now, x.principal, none, cdn⟩),
    ("consumer.json", consumerPlan (.ofConsumer consumer (resolveUrl web x.settings.prefixWebUrl)
      (resolveUrl api x.settings.prefixApiUrl))),
    ("upstream_consumer", identityPlan consumer.idCert),
    ("entitlements", entitlementsPlan x.rules l.entitlements),
    ("entitlement_certificates", certificatesPlan ⟨none, some x.rules⟩ l.entitlements),
    ("products", productsPlan x.source consumer.ownerKey l.entitlements),
    ("consumer_types", consumerTypesPlan l.consumerTypes),
    ("rules2", [.write ["rules2", "rules.js"] (.text [l.rules.rules])])]

/-- The steps from the legacy rules on, these written as they are found. -/
def stepsAfter (l : Lookups) : Plan.Steps :=
  [("rules", [.write ["rules", "default-rules.js"] (.text [l.legacyRules])]),
    ("distributor_version", distributorVersionsPlan l.distributorVersions),
    ("content_delivery_network", cdnsPlan l.cdns)]

theorem steps_apart (l : Lookups) :
    Plan.Apart (x.stepsBefore consumer cdn web api now l ++ stepsAfter l) where
  fills := by
    simp only [stepsBefore, stepsAfter, List.cons_append, List.nil_append, List.forall_mem_cons,
      List.not_mem_nil, false_imp_iff, implies_true, and_true]
    exact ⟨metaPlan_fills _, consumerPlan_fills _, identityPlan_fills _, entitlementsPlan_fills _ _,
      certificatesPlan_fills _ _, productsPlan_fills _ _ _, consumerTypesPlan_fills _,
      Plan.write_fills rulesFile_isFilePlace rfl, Plan.write_fills legacyRulesFile_isFilePlace rfl,
      distributorVersionsPlan_fills _, cdnsPlan_fills _⟩
  distinct := by
    simp [stepsBefore, stepsAfter]

end

section
variable {x : Exporter} {consumer : Consumer} {cdn web api : Option String} {now : Moment}
  {l : Lookups} {place : Place} {bytes : ByteArray}

theorem isLast_singleton {w v : Place × ByteArray} : IsLast Prod.fst [w] v ↔ v = w := by
  rw [isLast_of_nodup (by simp), List.mem_singleton]

theorem isLast_toList {α : Type} {key : α → String} {o : Option α} {a : α} :
    IsLast key o.toList a ↔ o = some a := by
  rw [isLast_of_nodup (by cases o <;> simp), Option.mem_toList]

theorem json_bytes (j : Json) : (FileContent.ofRecord j).bytes = j.sorted.text.toUTF8 := by
  simp [FileContent.ofRecord, FileContent.bytes, FileContent.render, String.join]

theorem text_bytes (s : String) : (FileContent.text [s]).bytes = s.toUTF8 := by
  simp [FileContent.bytes, FileContent.render, String.join]

theorem pair_bytes (s t : String) : (FileContent.pemPair s t).bytes = (s ++ t).toUTF8 := by
  simp [FileContent.pemPair, FileContent.bytes, FileContent.render, String.join]

theorem step_file {s : String × Plan} (tidy : s.2.Clean)
    (member : s ∈ x.stepsBefore consumer cdn web api now l ++ stepsAfter l)
    (wrote : IsLast Prod.fst s.2.writes (place, bytes)) :
    ∃ text, FullFile x consumer cdn web api now l place text ∧ bytes = text.toUTF8 := by
  simp only [stepsBefore, stepsAfter, List.cons_append, List.nil_append, List.mem_cons,
    List.not_mem_nil, or_false] at member
  rcases member with rfl | rfl | rfl | rfl | rfl | rfl | rfl | rfl | rfl | rfl | rfl
  · cases isLast_singleton.mp wrote
    exact ⟨_, .metadata, json_bytes _⟩
  · cases isLast_singleton.mp wrote
    exact ⟨_, .consumer, json_bytes _⟩
  · obtain ⟨c, last, rfl, rfl⟩ := (records_isLast tidy).mp wrote
    exact ⟨_, .identity (isLast_toList.mp last), json_bytes _⟩
  · simp only [entitlementsPlan_clean tidy] at tidy wrote
    obtain ⟨e, last, rfl, rfl⟩ := (records_isLast tidy).mp wrote
    exact ⟨_, .entitlement last, json_bytes _⟩
  · obtain ⟨c, last, rfl, rfl⟩ := (records_isLast tidy).mp wrote
    rw [select_accepted, isLast_serial] at last
    exact ⟨_, .certificate last, pair_bytes _ _⟩
  · obtain ⟨p, reached, written⟩ := (productsPlan_isLast tidy).mp wrote
    rcases mem_productWrites.mp written with ⟨rfl, rfl⟩ | ⟨c, has, rfl, rfl⟩
    · exact ⟨_, .product reached, json_bytes _⟩
    · obtain ⟨machine, issued⟩ := certificateOf_some.mp has
      obtain ⟨filled, digits⟩ := isEngineering_iff.mp machine
      exact ⟨_, .productCertificate reached filled digits issued, text_bytes _⟩
  · obtain ⟨t, last, rfl, rfl⟩ := (records_isLast tidy).mp wrote
    exact ⟨_, .consumerType last, json_bytes _⟩
  · cases isLast_singleton.mp wrote
    exact ⟨_, .rules, text_bytes _⟩
  · cases isLast_singleton.mp wrote
    exact ⟨_, .legacyRules, text_bytes _⟩
  · obtain ⟨v, last, rfl, rfl⟩ := (records_isLast tidy).mp wrote
    exact ⟨_, .distributorVersion last, json_bytes _⟩
  · obtain ⟨c, last, rfl, rfl⟩ := (records_isLast tidy).mp wrote
    exact ⟨_, .cdn last, json_bytes _⟩

theorem file_step {text : String}
    (tidy : ∀ s ∈ x.stepsBefore consumer cdn web api now l ++ stepsAfter l, s.2.Clean)
    (file : FullFile x consumer cdn web api now l place text) :
    ∃ s ∈ x.stepsBefore consumer cdn web api now l ++ stepsAfter l,
      IsLast Prod.fst s.2.writes (place, text.toUTF8) := by
  have step : ∀ s, s ∈ x.stepsBefore consumer cdn web api now l ++ stepsAfter l →
      (s.2.Clean → IsLast Prod.fst s.2.writes (place, text.toUTF8)) →
      ∃ s ∈ x.stepsBefore consumer cdn web api now l ++ stepsAfter l,
        IsLast Prod.fst s.2.writes (place, text.toUTF8) :=
    fun s member wrote => ⟨s, member, wrote (tidy s member)⟩
  cases file with
  | metadata =>
    refine step ("meta.json", metaPlan ⟨x.settings.version, now, x.principal, none, cdn⟩)
      (by simp [stepsBefore]) fun _ => isLast_singleton.mpr ?_
    rw [← json_bytes]
  | consumer =>
    refine step ("consumer.json", consumerPlan (.ofConsumer consumer
      (resolveUrl web x.settings.prefixWebUrl) (resolveUrl api x.settings.prefixApiUrl)))
      (by simp [stepsBefore]) fun _ => isLast_singleton.mpr ?_
    rw [← json_bytes]
  | identity has =>
    refine step ("upstream_consumer", identityPlan consumer.idCert) (by simp [stepsBefore])
      fun tidy => (records_isLast tidy).mpr ⟨_, isLast_toList.mpr has, rfl, (json_bytes _).symm⟩
  | entitlement last =>
    refine step ("entitlements", entitlementsPlan x.rules l.entitlements) (by simp [stepsBefore])
      fun tidy => ?_
    simp only [entitlementsPlan_clean tidy] at tidy ⊢
    exact (records_isLast tidy).mpr ⟨_, last, rfl, (json_bytes _).symm⟩
  | certificate last =>
    rw [← isLast_serial, ← select_accepted] at last
    exact step ("entitlement_certificates", certificatesPlan ⟨none, some x.rules⟩ l.entitlements)
      (by simp [stepsBefore])
      fun tidy => (records_isLast tidy).mpr ⟨_, last, rfl, (pair_bytes _ _).symm⟩
  | product reached =>
    exact step ("products", productsPlan x.source consumer.ownerKey l.entitlements)
      (by simp [stepsBefore]) fun tidy => (productsPlan_isLast tidy).mpr
        ⟨_, reached, mem_productWrites.mpr (.inl ⟨rfl, (json_bytes _).symm⟩)⟩
  | productCertificate reached filled digits issued =>
    have machine := isEngineering_iff.mpr ⟨filled, digits⟩
    exact step ("products", productsPlan x.source consumer.ownerKey l.entitlements)
      (by simp [stepsBefore]) fun tidy => (productsPlan_isLast tidy).mpr
        ⟨_, reached, mem_productWrites.mpr (.inr ⟨_, certificateOf_some.mpr ⟨machine, issued⟩, rfl,
          (text_bytes _).symm⟩)⟩
  | consumerType last =>
    exact step ("consumer_types", consumerTypesPlan l.consumerTypes) (by simp [stepsBefore])
      fun tidy => (records_isLast tidy).mpr ⟨_, last, rfl, (json_bytes _).symm⟩
  | rules =>
    refine step ("rules2", [.write ["rules2", "rules.js"] (.text [l.rules.rules])])
      (by simp [stepsBefore]) fun _ => isLast_singleton.mpr ?_
    rw [← text_bytes]
  | legacyRules =>
    refine step ("rules", [.write ["rules", "default-rules.js"] (.text [l.legacyRules])])
      (by simp [stepsAfter]) fun _ => isLast_singleton.mpr ?_
    rw [← text_bytes]
  | distributorVersion last =>
    exact step ("distributor_version", distributorVersionsPlan l.distributorVersions)
      (by simp [stepsAfter])
      fun tidy => (records_isLast tidy).mpr ⟨_, last, rfl, (json_bytes _).symm⟩
  | cdn last =>
    exact step ("content_delivery_network", cdnsPlan l.cdns) (by simp [stepsAfter])
      fun tidy => (records_isLast tidy).mpr ⟨_, last, rfl, (json_bytes _).symm⟩

theorem steps_files
    (clean : Plan.Clean
      ((x.stepsBefore consumer cdn web api now l ++ stepsAfter l).flatMap Prod.snd)) :
    IsLast Prod.fst
        (Plan.writes ((x.stepsBefore consumer cdn web api now l ++ stepsAfter l).flatMap Prod.snd))
        (place, bytes) ↔
      ∃ text, FullFile x consumer cdn web api now l place text ∧ bytes = text.toUTF8 := by
  rw [(x.steps_apart consumer cdn web api now l).isLast]
  constructor
  · rintro ⟨s, member, wrote⟩
    exact step_file (clean.step member) member wrote
  · rintro ⟨text, file, rfl⟩
    exact file_step (fun s member => clean.step member) file

/-! ### Running the steps -/

def legacyAction (path : Option String) : Action :=
  match path with
  | none => .write ["rules", "default-rules.js"] (.text [LegacyRules.bundledText])
  | some path => .copy path ["rules", "default-rules.js"]

theorem rulesPlan_eq (rules : Rules) (path : Option String) :
    rulesPlan rules (.ofOverride path) =
      [.write ["rules2", "rules.js"] (.text [rules.rules]), legacyAction path] := by
  cases path <;> rfl

theorem legacyAction_run {path : Option String} {text : String} {d : Disk}
    (legacy : IsLegacyText path d text) (root : String) : (legacyAction path).run root d =
      (Action.write ["rules", "default-rules.js"] (.text [text])).run root d := by
  cases path with
  | none =>
    obtain rfl := legacy
    rfl
  | some path => exact Action.run_copy legacy

theorem legacyAction_ok {path : Option String} {root : String} {d d' : Disk}
    (ran : (legacyAction path).run root d = (.ok (), d')) : ∃ text, IsLegacyText path d text := by
  cases path with
  | none => exact ⟨_, rfl⟩
  | some path =>
    cases read : d.contentText path with
    | error e => simp [legacyAction, Action.run, read] at ran
    | ok text => exact ⟨text, read⟩

/- A full plan whose lookups all succeed is made of its steps, except for where the legacy rules come
   from. -/
theorem plan_spelled {l : Lookups} (types : x.source.consumerTypes = .ok l.consumerTypes)
    (rules : x.source.rules = .ok l.rules)
    (versions : x.source.distributorVersions = .ok l.distributorVersions)
    (cdns : x.source.cdns = .ok l.cdns) :
    x.plan consumer l.entitlements now (.full cdn web api) =
      (x.stepsBefore consumer cdn web api now l).flatMap Prod.snd ++
        legacyAction x.settings.legacyRulesPath ::
          (distributorVersionsPlan l.distributorVersions ++ cdnsPlan l.cdns) := by
  simp [plan, stepsBefore, onLookup, types, rules, versions, cdns, rulesPlan_eq]

theorem plan_full {es : List Entitlement}
    (clean : (x.plan consumer es now (.full cdn web api)).Clean) :
    ∃ types rules versions cdns, x.source.consumerTypes = .ok types ∧ x.source.rules = .ok rules ∧
      x.source.distributorVersions = .ok versions ∧ x.source.cdns = .ok cdns := by
  simp only [plan, Plan.clean_append] at clean
  obtain ⟨⟨⟨⟨-, types⟩, rules⟩, versions⟩, cdns⟩ := clean
  obtain ⟨types, foundTypes, -⟩ := Plan.clean_onLookup types
  obtain ⟨rules, foundRules, -⟩ := Plan.clean_onLookup rules
  obtain ⟨versions, foundVersions, -⟩ := Plan.clean_onLookup versions
  obtain ⟨cdns, foundCdns, -⟩ := Plan.clean_onLookup cdns
  exact ⟨types, rules, versions, cdns, foundTypes, foundRules, foundVersions, foundCdns⟩

theorem run_full {es : List Entitlement} {root : String} {d d' : Disk}
    (found : x.source.entitlements consumer = .ok es)
    (ran : (x.plan consumer es now (.full cdn web api)).run root d = (.ok (), d')) :
    ∃ l mid, x.Finds consumer mid l ∧
      Plan.run root d ((x.stepsBefore consumer cdn web api now l).flatMap Prod.snd) = (.ok (), mid) ∧
      Plan.run root mid ((stepsAfter l).flatMap Prod.snd) = (.ok (), d') := by
  obtain ⟨types, rules, versions, cdns, foundTypes, foundRules, foundVersions, foundCdns⟩ :=
    plan_full (Plan.run_clean ran)
  rw [plan_spelled (l := ⟨es, types, rules, "", versions, cdns⟩) foundTypes foundRules foundVersions
    foundCdns] at ran
  obtain ⟨mid, before, after⟩ := Plan.run_append_ok.mp ran
  rw [← List.singleton_append] at after
  obtain ⟨e, legacy, after⟩ := Plan.run_append_ok.mp after
  rw [Plan.run_singleton] at legacy
  obtain ⟨text, isText⟩ := legacyAction_ok legacy
  rw [legacyAction_run isText] at legacy
  refine ⟨⟨es, types, rules, text, versions, cdns⟩, mid,
    ⟨found, foundTypes, foundRules, isText, foundVersions, foundCdns⟩, before, ?_⟩
  simpa [stepsAfter, Plan.run, legacy] using after

theorem run_of_steps {l : Lookups} {root : String} {d mid d' : Disk} (finds : x.Finds consumer mid l)
    (before : Plan.run root d ((x.stepsBefore consumer cdn web api now l).flatMap Prod.snd) =
      (.ok (), mid))
    (after : Plan.run root mid ((stepsAfter l).flatMap Prod.snd) = (.ok (), d')) :
    (x.plan consumer l.entitlements now (.full cdn web api)).run root d = (.ok (), d') := by
  rw [plan_spelled finds.consumerTypes finds.rules finds.distributorVersions finds.cdns]
  refine Plan.run_append_ok.mpr ⟨mid, before, ?_⟩
  simpa [stepsAfter, Plan.run, legacyAction_run finds.legacyRules] using after

/-! ### The tree in the end -/

theorem legacyText_kept {text : String} {d d' : Disk} {path : Option String} (keeps : d.Keeps d')
    (files : ∀ p bytes, d.get? p = some (.file bytes) → d'.get? p = some (.file bytes))
    (legacy : IsLegacyText path d text) : IsLegacyText path d' text := by
  cases path with
  | none => exact legacy
  | some path =>
    simp only [IsLegacyText, contentText, bind_ok] at legacy ⊢
    obtain ⟨bytes, read, decoded⟩ := legacy
    obtain ⟨p, found, held⟩ := content_ok.mp read
    exact ⟨bytes, keeps.content found (files p bytes held), decoded⟩

end

section
variable {x : Exporter} {consumer : Consumer} {cdn web api : Option String} {now : Moment}
  {names : List String} {d d' opened filled : Disk} {path area : String} {A : Place}
  {es : List Entitlement} {entries : List Zip.Entry} {signature : ByteArray}

theorem Opened.nothing_beside {workDir s : String} (fresh : Opened d workDir names area A opened)
    (grounded : d.Grounded) (works : opened.WorksIn (A ++ [treeName]) filled) (beside : s ≠ treeName) :
    filled.get? (A ++ [s]) = none := by
  rw [works.outside (A ++ [s]) (by simpa using beside.symm)]
  exact fresh.empty grounded [s] (by simp)

theorem Opened.tree_empty {workDir : String} (fresh : Opened d workDir names area A opened)
    (grounded : d.Grounded) : opened.Tree (A ++ [treeName]) [] := by
  intro t bytes
  have free := fresh.empty grounded (treeName :: t) (by simp)
  simp only [List.append_assoc, List.cons_append, List.nil_append, free, reduceCtorEq, false_iff]
  exact fun last => by simpa using last.mem

theorem Opened.steps_tree {workDir : String} (fresh : Opened d workDir names area A opened)
    (grounded : d.Grounded) (listed : x.source.entitlements consumer = .ok es)
    (ran : (x.plan consumer es now (.full cdn web api)).run (join area treeName) opened =
      (.ok (), filled)) :
    ∃ l mid, x.Finds consumer mid l ∧ l.entitlements = es ∧ opened.WorksIn (A ++ [treeName]) mid ∧
      mid.WorksIn (A ++ [treeName]) filled ∧
      (∀ p bytes, mid.get? p = some (.file bytes) → filled.get? p = some (.file bytes)) ∧
      Plan.Clean ((x.stepsBefore consumer cdn web api now l ++ stepsAfter l).flatMap Prod.snd) ∧
      filled.Tree (A ++ [treeName]) (Plan.writes
        ((x.stepsBefore consumer cdn web api now l ++ stepsAfter l).flatMap Prod.snd)) := by
  obtain ⟨l, mid, finds, before, after⟩ := run_full listed ran
  have apart := x.steps_apart consumer cdn web api now l
  have leads := fresh.leads
  have works := Plan.run_worksIn leads treeName_component apart.left.sound before
  have first := Plan.run_tree leads treeName_component apart.left.sound apart.left.direct before
    (fresh.tree_empty grounded) (by simp)
  have works' := Plan.run_worksIn (leads.kept works.keeps) treeName_component apart.right.sound after
  have second := Plan.run_tree (leads.kept works.keeps) treeName_component apart.right.sound
    apart.right.direct after first (by simpa using apart.left.sound.places)
  rw [List.nil_append] at first second
  refine ⟨l, mid, finds, Except.ok.inj (finds.entitlements.symm.trans listed), works, works',
    fun p bytes held => ?_, ?_, ?_⟩
  · by_cases inside : A ++ [treeName] <+: p
    · obtain ⟨t, rfl⟩ := inside
      have last := (first t bytes).mp held
      exact (second t bytes).mpr (isLast_append.mpr (.inr ⟨last, fun w member =>
        (apart.place_ne last.mem member).symm⟩))
    · rw [works'.outside p inside, held]
  · rw [List.flatMap_append]
    exact Plan.clean_append.mpr ⟨Plan.run_clean before, Plan.run_clean after⟩
  · rwa [List.flatMap_append, Plan.writes_append]

theorem Opened.full_tree {workDir : String} (fresh : Opened d workDir names area A opened)
    (grounded : d.Grounded) (listed : x.source.entitlements consumer = .ok es)
    (ran : (x.plan consumer es now (.full cdn web api)).run (join area treeName) opened =
      (.ok (), filled)) :
    ∃ l mid, x.Finds consumer mid l ∧ l.entitlements = es ∧ opened.WorksIn (A ++ [treeName]) mid ∧
      mid.WorksIn (A ++ [treeName]) filled ∧
      (∀ p bytes, mid.get? p = some (.file bytes) → filled.get? p = some (.file bytes)) ∧
      ∀ place bytes, filled.get? (A ++ treeName :: place) = some (.file bytes) ↔
        ∃ text, FullFile x consumer cdn web api now l place text ∧ bytes = text.toUTF8 := by
  obtain ⟨l, mid, finds, same, works, works', stays, clean, tree⟩ := fresh.steps_tree grounded listed ran
  refine ⟨l, mid, finds, same, works, works', stays, fun place bytes => ?_⟩
  rw [← steps_files clean, ← tree]
  simp

theorem Completed.full_tree (c : Completed x consumer (.full cdn web api) now names d path d' area A
      es opened filled entries signature) (grounded : d.Grounded) :
    ∃ l, x.Finds consumer d' l ∧ l.entitlements = es ∧
      ∀ place bytes, d'.get? (A ++ treeName :: place) = some (.file bytes) ↔
        ∃ text, FullFile x consumer cdn web api now l place text ∧ bytes = text.toUTF8 := by
  obtain ⟨l, mid, finds, same, works, works', stays, files⟩ :=
    c.fresh.full_tree grounded c.listed c.ran
  have kept : ∀ p bytes, mid.get? p = some (.file bytes) → d'.get? p = some (.file bytes) := by
    intro p bytes held
    by_cases inside : A ++ [treeName] <+: p
    · obtain ⟨t, rfl⟩ := inside
      have later := stays _ _ held
      simp only [List.append_assoc, List.cons_append, List.nil_append] at later ⊢
      rw [c.tree_kept, later]
    · have other : ∀ s, s ≠ treeName → p ≠ A ++ [s] := by
        rintro s beside rfl
        rw [c.fresh.nothing_beside grounded works beside] at held
        cases held
      rw [c.packed.others p (other _ (by decide)) (other _ (signedFileName_ne_treeName _ _)),
        works'.outside p inside, held]
  have legacy := legacyText_kept (works'.keeps.trans c.packed.keeps) kept finds.legacyRules
  refine ⟨l, { finds with legacyRules := legacy }, same, fun place bytes => ?_⟩
  rw [c.tree_kept, files]

end

end SignedManifest.Exporter
