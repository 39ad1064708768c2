import SignedManifest.Proofs.Archive.Refusing
import SignedManifest.Proofs.Export.Contents
import SignedManifest.Proofs.Export.Failing

/-!
Exports that fail. The first stage that fails decides the error. Until the tree is packed it holds
the files that were finished before the failure, and a failure to pack it leaves no signed archive.
-/
namespace SignedManifest
open SignedManifest.Path Disk

/-! ### Places of export trees -/

/-- A name that a directory of a step may have: that of no file at the top of a tree, nor of a sibling. -/
def IsFolder (dir : String) : Prop :=
  dir ≠ "meta.json" ∧ dir ≠ "consumer.json" ∧ dir.toList.getLast? ≠ some 'p'

instance : DecidablePred IsFolder := fun _ => inferInstanceAs (Decidable (_ ∧ _ ∧ _))

/-- A file of an export tree: one of the two at its top, or one in the directory of a step, under a
name that is neither that of a sibling nor that of an archive. -/
inductive IsTreePlace : Place → Prop where
  | top {name : String} (known : name = "meta.json" ∨ name = "consumer.json") : IsTreePlace [name]
  | inside {dir name : String} {x : Char} (apart : IsFolder dir)
      (ends : name.toList.getLast? = some x) (other : x ≠ 'p') : IsTreePlace [dir, name]

namespace IsTreePlace

theorem script {dir name : String} (apart : IsFolder dir) (ends : name.toList.getLast? = some 's') :
    IsTreePlace [dir, name] :=
  .inside apart ends (by decide)

theorem flat : Flat IsTreePlace := by
  intro p q file file' first
  have size := first.length_le
  cases file with
  | top known =>
    cases file' with
    | top _ => exact first.eq_of_length rfl
    | inside apart _ _ =>
      obtain ⟨rfl, _⟩ := List.cons_prefix_cons.mp first
      exact (known.elim apart.1 apart.2.1).elim
  | inside _ _ _ =>
    cases file' with
    | top _ => simp at size
    | inside _ _ _ => exact first.eq_of_length rfl

theorem ends {p : Place} {s : String} (file : IsTreePlace (p ++ [s])) :
    ∃ x, s.toList.getLast? = some x ∧ x ≠ 'p' := by
  generalize whole : p ++ [s] = q at file
  have last := congrArg List.getLast? whole
  cases file with
  | top known =>
    obtain rfl : s = _ := by simpa using last
    obtain rfl | rfl := known <;> exact ⟨'n', by decide, by decide⟩
  | inside _ ends other =>
    obtain rfl : s = _ := by simpa using last
    exact ⟨_, ends, other⟩

theorem final {p : Place} {s : String} (file : IsTreePlace (p ++ [s])) (stem : String) :
    s ≠ stem ++ ".tmp" ∧ s ≠ stem ++ ".zip" := by
  obtain ⟨x, last, other⟩ := file.ends
  refine ⟨ne_sibling last other, ?_⟩
  rintro rfl
  simp at last
  exact other last.symm

end IsTreePlace

namespace Plan

theorem Records.fits {dir : String} {plan : Plan} (records : plan.Records dir)
    (apart : IsFolder dir) : plan.Fits IsTreePlace := by
  intro a member names filled
  cases records a member with
  | @record stem extension content known =>
    unfold Action.record at filled
    split at filled
    · cases filled
      obtain ⟨x, last, other⟩ := known.ends stem
      exact .inside apart last other
    · cases filled
  | fail e => cases filled

theorem fits_write {P : Place → Prop} {names : Place} {content : FileContent} (place : P names) :
    Fits P [.write names content] := by
  intro a member names' filled
  obtain rfl := List.mem_singleton.mp member
  cases filled
  exact place

theorem rulesPlan_fits (rules : Rules) (legacy : LegacyRules) :
    (Roster.rulesPlan rules legacy).Fits IsTreePlace := by
  intro a member names filled
  simp only [Roster.rulesPlan, List.mem_cons, List.not_mem_nil, or_false] at member
  rcases member with rfl | rfl
  · cases filled
    exact .script (by decide) (by decide)
  · cases legacy
    all_goals
      cases filled
      exact .script (by decide) (by decide)

theorem fits_onLookup {α : Type} {context : String} {result : Except String α} {f : α → Plan}
    {P : Place → Prop} (each : ∀ b, (f b).Fits P) : (Roster.onLookup context result f).Fits P := by
  intro a member
  rcases mem_onLookup member with ⟨b, member⟩ | ⟨e, rfl⟩
  · exact each b a member
  · nofun

end Plan

def Roster.folders : List String :=
  ["upstream_consumer", "entitlements", "entitlement_certificates", "content_access_certificates",
    "products", "consumer_types", "rules2", "rules", "distributor_version",
    "content_delivery_network"]

namespace Exporter
open Plan Roster

/-! ### Steps by name -/

def roster (x : Exporter) (consumer : Consumer) (es : List Entitlement) (now : Moment) :
    Scope → List (String × Plan)
  | .full cdn web api => [
    ("meta", metaPlan ⟨x.settings.version, now, x.principal, none, cdn⟩),
    ("consumer", consumerPlan (.ofConsumer consumer (resolveUrl web x.settings.prefixWebUrl)
      (resolveUrl api x.settings.prefixApiUrl))),
    ("identity certificate", identityPlan consumer.idCert),
    ("entitlements", entitlementsPlan x.rules es),
    ("entitlement certificates", certificatesPlan ⟨none, some x.rules⟩ es),
    ("products", productsPlan x.source consumer.ownerKey es),
    ("consumer types", onLookup (loading "consumer types") x.source.consumerTypes consumerTypesPlan),
    ("rules", onLookup (loading "rules") x.source.rules
      (rulesPlan · (.ofOverride x.settings.legacyRulesPath))),
    ("distributor versions", onLookup (loading "distributor versions") x.source.distributorVersions
      distributorVersionsPlan),
    ("content delivery networks", onLookup (loading "content delivery networks") x.source.cdns
      cdnsPlan)]
  | .certificates serials => [
    ("meta", metaPlan ⟨x.settings.version, now, x.principal, none, none⟩),
    ("entitlement certificates", certificatesPlan ⟨serials, none⟩ es),
    ("content access certificates", onLookup (loading "content access certificate")
      (x.source.contentAccessCertificate consumer) contentAccessPlan)]

theorem plan_eq_roster (x : Exporter) (consumer : Consumer) (es : List Entitlement) (now : Moment)
    (scope : Scope) :
    x.plan consumer es now scope = (x.roster consumer es now scope).flatMap Prod.snd := by
  cases scope <;> simp [plan, roster]

theorem roster_fits {P : Place → Prop}
    (top : ∀ name, name = "meta.json" ∨ name = "consumer.json" → P [name])
    (records : ∀ dir ∈ folders, ∀ plan : Plan, plan.Records dir → plan.Fits P)
    (rules : ∀ rules legacy, (rulesPlan rules legacy).Fits P) (x : Exporter) (consumer : Consumer)
    (es : List Entitlement) (now : Moment) (scope : Scope) :
    ∀ step ∈ x.roster consumer es now scope, step.2.Fits P := by
  cases scope with
  | full cdn web api =>
    simp only [roster, List.forall_mem_cons, List.not_mem_nil, false_imp_iff, implies_true, and_true]
    exact ⟨fits_write (top _ (.inl rfl)), fits_write (top _ (.inr rfl)),
      records _ (by decide) _ (identityPlan_records _),
      records _ (by decide) _ (entitlementsPlan_records _ _),
      records _ (by decide) _ (certificatesPlan_records _ _),
      records _ (by decide) _ (productsPlan_records _ _ _),
      fits_onLookup fun ts => records _ (by decide) _ (consumerTypesPlan_records ts),
      fits_onLookup fun r => rules r _,
      fits_onLookup fun vs => records _ (by decide) _ (distributorVersionsPlan_records vs),
      fits_onLookup fun cs => records _ (by decide) _ (cdnsPlan_records cs)⟩
  | certificates serials =>
    simp only [roster, List.forall_mem_cons, List.not_mem_nil, false_imp_iff, implies_true, and_true]
    exact ⟨fits_write (top _ (.inl rfl)), records _ (by decide) _ (certificatesPlan_records _ _),
      fits_onLookup fun cert => records _ (by decide) _ (contentAccessPlan_records cert)⟩

theorem fits_flatMap {P : Place → Prop} {steps : List (String × Plan)}
    (each : ∀ step ∈ steps, step.2.Fits P) : Fits P (steps.flatMap Prod.snd) := by
  intro a member
  obtain ⟨step, here, action⟩ := List.mem_flatMap.mp member
  exact each step here a action

theorem plan_fits (x : Exporter) (consumer : Consumer) (es : List Entitlement) (now : Moment)
    (scope : Scope) : (x.plan consumer es now scope).Fits IsTreePlace := by
  have apart : ∀ dir ∈ folders, IsFolder dir := by decide
  rw [plan_eq_roster]
  exact fits_flatMap (roster_fits (fun _ known => .top known)
    (fun dir member _ records => records.fits (apart dir member)) rulesPlan_fits x consumer es now scope)

theorem flatMap_split {α β : Type} {f : α → List β} {l : List α} {front back : List β} {b : β}
    (split : l.flatMap f = front ++ b :: back) :
    ∃ before a after left right, l = before ++ a :: after ∧ f a = left ++ b :: right ∧
      front = before.flatMap f ++ left := by
  induction l generalizing front with
  | nil => simp at split
  | cons a l ih =>
    rw [List.flatMap_cons] at split
    have later {more : List β} (whole : front = f a ++ more) (rest : l.flatMap f = more ++ b :: back) :
        ∃ before a' after left right, a :: l = before ++ a' :: after ∧ f a' = left ++ b :: right ∧
          front = before.flatMap f ++ left := by
      obtain ⟨before, a', after, left, right, rfl, part, rfl⟩ := ih rest
      exact ⟨a :: before, a', after, left, right, rfl, part, by simp [whole]⟩
    rcases List.append_eq_append_iff.mp split with ⟨more, whole, rest⟩ | ⟨more, part, rest⟩
    · exact later whole rest
    · cases more with
      | nil => exact @later [] (by simpa using part.symm) (by simpa using rest.symm)
      | cons c more =>
        obtain ⟨rfl, _⟩ := List.cons.inj rest
        exact ⟨[], a, l, front, more, rfl, part, rfl⟩

theorem record_ne_source {dir stem extension context cause : String} {content : FileContent} :
    Action.record dir stem extension content ≠ .fail (.source context cause) := by
  unfold Action.record
  split <;> simp

theorem productPlan_missing {source : Source} {owner context cause : String} {p : Product}
    {left right : List Action}
    (split : productPlan source owner p = left ++ .fail (.source context cause) :: right) :
    context = "product certificate " ++ p.id ∧ source.productCertificate owner p.id = .error cause ∧
      left = [.record "products" p.id "json" (.ofRecord p.json)] := by
  cases left with
  | nil => exact absurd (List.cons.inj split).1 record_ne_source
  | cons a left =>
    obtain ⟨rfl, tail⟩ := List.cons.inj split
    split at tail
    · unfold onLookup at tail
      split at tail
      · have lookup : .fail (.source context cause) ∈ left ++ .fail (.source context cause) :: right :=
          by simp
        rw [← List.append_eq, ← tail] at lookup
        obtain ⟨c, _, same⟩ := List.mem_map.mp lookup
        exact absurd same record_ne_source
      · rename_i failed
        cases left with
        | nil =>
          obtain ⟨⟨rfl, rfl⟩, _⟩ := by simpa using tail
          exact ⟨rfl, failed, rfl⟩
        | cons b left => simp at tail
    · simp at tail

theorem productsPlan_missing {source : Source} {owner id cause : String} {es : List Entitlement}
    {done rest : List Action}
    (split : productsPlan source owner es =
      done ++ .fail (.source ("product certificate " ++ id) cause) :: rest) :
    ∃ p front, (productClosure es).get? id = some p ∧ source.productCertificate owner id = .error cause ∧
      done = front ++ [.record "products" id "json" (.ofRecord p.json)] := by
  obtain ⟨before, p, after, left, right, listed, spelled, rfl⟩ := flatMap_split split
  obtain ⟨named, failed, rfl⟩ := productPlan_missing spelled
  obtain rfl : id = p.id := by simpa using named
  exact ⟨p, _, mem_productClosure_values.mp (by simp [listed]), failed, rfl⟩

theorem rulesStep_copy {result : Except String Rules} {legacy : LegacyRules} {path : String}
    {place : List String} {done rest : List Action}
    (split : onLookup (loading "rules") result (rulesPlan · legacy) =
      done ++ .copy path place :: rest) :
    ∃ rules, result = .ok rules ∧ done = [.write ["rules2", "rules.js"] (.text [rules.rules])] := by
  unfold onLookup at split
  split at split
  · rename_i rules
    refine ⟨rules, rfl, ?_⟩
    unfold rulesPlan at split
    cases done with
    | nil => simp at split
    | cons a done =>
      obtain ⟨rfl, tail⟩ := List.cons.inj split
      cases done with
      | nil => rfl
      | cons b done => simp at tail
  · cases done <;> simp at split

/-! ### What a failure leaves -/

/-- What actions leave of a new work area that went through: the files that they finished, in the
tree alone, and none under the name of a sibling or an archive. -/
structure Left (area : String) (A : Place) (opened : Disk) (done : Plan) (d : Disk) : Prop where
  tree : d.Tree (A ++ [treeName]) (done.effects (join area treeName) opened)
  alone : ∀ s t, s ≠ treeName → d.get? (A ++ s :: t) = none
  final : ∀ t s bytes, d.get? (A ++ (t ++ [s])) = some (.file bytes) →
    ∀ stem, s ≠ stem ++ ".tmp" ∧ s ≠ stem ++ ".zip"

/-- How an export fails and what it leaves. In every case all that comes before went through: the work
area, the lookup of the entitlements, the steps in their order, and in a step its own actions. -/
inductive Failure (x : Exporter) (consumer : Consumer) (scope : Scope) (now : Moment)
    (names : List String) (d : Disk) : ExportError → Disk → Prop where
  | workArea {e : ExportError} {d' : Disk}
      (refused : openArea d x.settings.workDir names = (.error e, d'))
      (makes : d.MakesDirs x.settings.workDir d') : Failure x consumer scope now names d e d'
  | entitlements {area cause : String} {A : Place} {opened : Disk}
      (opens : openArea d x.settings.workDir names = (.ok area, opened))
      (fresh : Opened d x.settings.workDir names area A opened)
      (missing : x.source.entitlements consumer = .error cause)
      (empty : ∀ t, t ≠ [] → opened.get? (A ++ t) = none) :
      Failure x consumer scope now names d (.source ("entitlements of " ++ consumer.uuid) cause) opened
  | step {area name : String} {A : Place} {opened mid d' : Disk} {es : List Entitlement}
      {before after : List (String × Plan)} {done rest : Plan} {failing : Action} {e : ExportError}
      (opens : openArea d x.settings.workDir names = (.ok area, opened))
      (fresh : Opened d x.settings.workDir names area A opened)
      (listed : x.source.entitlements consumer = .ok es)
      (split : x.roster consumer es now scope = before ++ (name, done ++ failing :: rest) :: after)
      (ran : Plan.run (join area treeName) opened (before.flatMap Prod.snd ++ done) = (.ok (), mid))
      (stuck : failing.run (join area treeName) mid = (.error e, d'))
      (left : Left area A opened (before.flatMap Prod.snd ++ done) d')
      -- a product is there without its certificate, and the rules without the legacy rules
      (product : name = "products" → ∀ id cause,
        failing = .fail (.source ("product certificate " ++ id) cause) →
        ∃ p, (productClosure es).get? id = some p ∧
          x.source.productCertificate consumer.ownerKey id = .error cause ∧
          d'.get? (A ++ treeName :: recordFile "products" id "json") =
            some (.file (FileContent.ofRecord p.json).bytes))
      (rules : name = "rules" → ∀ path place, failing = .copy path place →
        ∃ rules, x.source.rules = .ok rules ∧
          d'.get? (A ++ [treeName, "rules2", "rules.js"]) =
            some (.file (FileContent.text [rules.rules]).bytes)) :
      Failure x consumer scope now names d e d'
  | packaging {area : String} {A : Place} {opened filled d' : Disk} {es : List Entitlement}
      {e : ExportError}
      (opens : openArea d x.settings.workDir names = (.ok area, opened))
      (fresh : Opened d x.settings.workDir names area A opened)
      (listed : x.source.entitlements consumer = .ok es)
      (ran : (x.plan consumer es now scope).run (join area treeName) opened = (.ok (), filled))
      (refused : Refused filled consumer.uuid area (join area treeName) x.settings.entryNaming
        x.signer e d')
      (unmade : ∀ S bytes, d'.locate (join area (signedFileName consumer.uuid (join area treeName))) =
        .ok S → d'.get? S = some (.file bytes) → d.get? S = some (.file bytes)) :
      Failure x consumer scope now names d e d'

section
variable {x : Exporter} {consumer : Consumer} {scope : Scope} {now : Moment} {names : List String}
  {d d' opened mid : Disk} {workDir area : String} {A : Place} {e : ExportError}

theorem Opened.clear (fresh : Opened d workDir names area A opened) (grounded : d.Grounded)
    (P : Place → Prop) : opened.Clear (A ++ [treeName]) P := by
  intro p _
  have free := fresh.empty grounded (treeName :: p) (by simp)
  rw [Bool.eq_false_iff, Ne, isDirAt_iff, List.append_assoc, List.singleton_append, free]
  simp

theorem left_of_stuck {done : Plan} {failing : Action}
    (fresh : Opened d workDir names area A opened) (grounded : d.Grounded)
    (sound : Plan.Sound (done ++ [failing])) (fits : Plan.Fits IsTreePlace (done ++ [failing]))
    (ran : done.run (join area treeName) opened = (.ok (), mid))
    (stuck : failing.run (join area treeName) mid = (.error e, d')) :
    Left area A opened done d' := by
  have whole : Plan.run (join area treeName) opened (done ++ [failing]) = (.error e, d') :=
    run_error.mpr ⟨done, failing, [], mid, rfl, ran, stuck⟩
  have works := run_worksIn fresh.leads treeName_component sound whole
  obtain ⟨tree, _⟩ := run_error_tree IsTreePlace.flat fresh.leads treeName_component sound fits
    (fresh.clear grounded _) (fresh.tree_empty grounded) (by simp) ran stuck
  rw [List.nil_append] at tree
  have alone : ∀ s t, s ≠ treeName → d'.get? (A ++ s :: t) = none := by
    intro s t beside
    rw [works.outside _ (by simpa using beside.symm)]
    exact fresh.empty grounded (s :: t) (by simp)
  refine ⟨tree, alone, fun t s bytes held => ?_⟩
  cases t with
  | nil =>
    by_cases here : s = treeName
    · obtain rfl := here
      have root := (tree [] bytes).mp (by simpa using held)
      cases (fits_append.mp fits).1.effects _ root.mem
    · rw [List.nil_append, alone s [] here] at held
      cases held
  | cons dir t =>
    by_cases here : dir = treeName
    · obtain rfl := here
      have inside := (tree (t ++ [s]) bytes).mp (by simpa using held)
      exact ((fits_append.mp fits).1.effects _ inside.mem).final
    · rw [List.cons_append, alone dir _ here] at held
      cases held

theorem Left.last {done : Plan} {place : List String} {content : FileContent}
    (left : Left area A opened (done ++ [.write place content]) d')
    (ran : Plan.run (join area treeName) opened (done ++ [.write place content]) = (.ok (), mid)) :
    d'.get? (A ++ treeName :: place) = some (.file content.bytes) := by
  obtain ⟨first, before, _⟩ := run_append_ok.mp ran
  have held := (left.tree place content.bytes).mpr (by
    rw [effects_append before]
    exact isLast_concat.mpr (.inl rfl))
  simpa using held

theorem record_of_ok {root dir stem extension : String} {content : FileContent}
    (ran : (Action.record dir stem extension content).run root d = (.ok (), d')) :
    Action.record dir stem extension content = .write (recordFile dir stem extension) content := by
  unfold Action.record at ran ⊢
  split at ran
  · rename_i plain
    rw [if_pos plain, recordFile]
  · cases ran

theorem left_of_failed {es : List Entitlement} (fresh : Opened d workDir names area A opened)
    (grounded : d.Grounded)
    (failed : (x.plan consumer es now scope).run (join area treeName) opened = (.error e, d')) :
    ∃ done failing rest mid, x.plan consumer es now scope = done ++ failing :: rest ∧
      done.run (join area treeName) opened = (.ok (), mid) ∧
      failing.run (join area treeName) mid = (.error e, d') ∧ Left area A opened done d' := by
  obtain ⟨front, failing, rest, mid, spelled, ran, stuck⟩ := run_error.mp failed
  have sound : Plan.Sound (front ++ [failing]) := by
    have all := spelled ▸ x.plan_sound consumer es now scope
    rw [List.append_cons] at all
    exact (sound_append.mp all).1
  have fits : Plan.Fits IsTreePlace (front ++ [failing]) := by
    have all := spelled ▸ x.plan_fits consumer es now scope
    rw [List.append_cons] at all
    exact (fits_append.mp all).1
  exact ⟨front, failing, rest, mid, spelled, ran, stuck,
    left_of_stuck fresh grounded sound fits ran stuck⟩

theorem Failure.of_step {es : List Entitlement}
    (opens : openArea d x.settings.workDir names = (.ok area, opened))
    (fresh : Opened d x.settings.workDir names area A opened) (grounded : d.Grounded)
    (listed : x.source.entitlements consumer = .ok es)
    (failed : (x.plan consumer es now scope).run (join area treeName) opened = (.error e, d')) :
    Failure x consumer scope now names d e d' := by
  obtain ⟨front, failing, rest, mid, spelled, ran, stuck, left⟩ :=
    left_of_failed fresh grounded failed
  rw [plan_eq_roster] at spelled
  obtain ⟨before, ⟨name, plan⟩, after, done, rest, split, rfl, rfl⟩ := flatMap_split spelled
  have listedStep : (name, done ++ failing :: rest) ∈ x.roster consumer es now scope := by simp [split]
  refine .step opens fresh listed split ran stuck left ?_ ?_
  · rintro rfl id cause rfl
    have isProducts : productsPlan x.source consumer.ownerKey es =
        done ++ .fail (.source ("product certificate " ++ id) cause) :: rest := by
      cases scope with
      | full => simpa [roster, eq_comm] using listedStep
      | certificates => simp [roster] at listedStep
    obtain ⟨p, earlier, found, missing, rfl⟩ := productsPlan_missing isProducts
    rw [← List.append_assoc] at ran left
    obtain ⟨_, _, last⟩ := run_append_ok.mp ran
    rw [run_singleton] at last
    rw [record_of_ok last] at ran left
    exact ⟨p, found, missing, left.last ran⟩
  · rintro rfl path place rfl
    have isRules : onLookup (loading "rules") x.source.rules
        (rulesPlan · (.ofOverride x.settings.legacyRulesPath)) = done ++ .copy path place :: rest := by
      cases scope with
      | full => simpa [roster, eq_comm] using listedStep
      | certificates => simp [roster] at listedStep
    obtain ⟨rules, found, rfl⟩ := rulesStep_copy isRules
    exact ⟨rules, found, left.last ran⟩

/- No step writes a file that could pass for a signed archive, in the tree or anywhere else. -/
theorem filled_archive {filled : Disk} {es : List Entitlement} {above : Place} {stem : String}
    {bytes : ByteArray} (fresh : Opened d workDir names area A opened) (grounded : d.Grounded)
    (ran : (x.plan consumer es now scope).run (join area treeName) opened = (.ok (), filled))
    (held : filled.get? (above ++ [stem ++ ".zip"]) = some (.file bytes)) :
    d.get? (above ++ [stem ++ ".zip"]) = some (.file bytes) := by
  have sound := x.plan_sound consumer es now scope
  have works := run_worksIn fresh.leads treeName_component sound ran
  by_cases inside : A ++ [treeName] <+: above ++ [stem ++ ".zip"]
  · obtain ⟨t, spelled⟩ := inside
    obtain ⟨tree, _⟩ := run_effects fresh.leads treeName_component sound ran
      (fresh.tree_empty grounded) (by simp)
    rw [← spelled, tree] at held
    have file := (x.plan_fits consumer es now scope).effects _ (by simpa using held.mem)
    obtain ⟨t, last, rfl⟩ := (List.eq_nil_or_concat' t).resolve_left (by rintro rfl; cases file)
    rw [← List.append_assoc] at spelled
    obtain ⟨_, same⟩ := List.append_inj' spelled rfl
    exact absurd (by simpa using same) (file.final stem).2
  · rw [works.outside _ inside] at held
    have other : above ++ [stem ++ ".zip"] ≠ A := by
      intro same
      rw [same, isDirAt_iff.mp fresh.leads.2] at held
      cases held
    rcases fresh.others _ other with same | ⟨_, dir, _⟩
    · rw [← same, held]
    · rw [dir] at held
      cases held

/- The error of an export is that of the first stage that fails, and what is left is what the stages
   before it and the finished part of the stage made. -/
theorem export_stops_at_first_failure (grounded : d.Grounded)
    (short : consumer.uuid.utf8ByteSize ≤ uuidLimit)
    (ran : x.run consumer scope now names d = (.error e, d')) :
    Failure x consumer scope now names d e d' := by
  unfold run at ran
  split at ran
  · rename_i refused
    cases ran
    exact .workArea refused (openArea_error refused)
  rename_i area opened opens
  obtain ⟨A, fresh⟩ := openArea_opens opens
  split at ran
  · rename_i cause missing
    cases ran
    exact .entitlements opens fresh missing (fresh.empty grounded)
  rename_i es listed
  simp only at ran
  split at ran
  · rename_i failed
    cases ran
    exact .of_step opens fresh grounded listed failed
  rename_i filled through
  have refused := package_error short ran
  refine .packaging opens fresh listed through refused fun S bytes found held => ?_
  obtain ⟨same, above, stem, rfl⟩ := refused.kept found
  rw [same] at held
  have zipped : stem ++ signedEnding (join area treeName) =
      stem ++ ("-" ++ (fileName? (join area treeName)).getD "export") ++ ".zip" := by
    simp [signedEnding, String.append_assoc]
  rw [zipped] at held ⊢
  exact filled_archive fresh grounded through held

end

def uncertifiedExporter : Exporter :=
  { sampleExporter with
    source := { sampleSource with productCertificate := fun _ _ => .error "down" } }

theorem uncertified_run : ∃ d', uncertifiedExporter.run sampleConsumer (.full none none none)
    sampleMoment ["a"] sampleDisk = (.error (.source "product certificate 69" "down"), d') :=
  refused (by decide +kernel)

theorem export_stops_at_first_failure_uncertified : sampleDisk.Grounded ∧
    sampleConsumer.uuid.utf8ByteSize ≤ uuidLimit ∧ ∃ d',
    uncertifiedExporter.run sampleConsumer (.full none none none) sampleMoment ["a"] sampleDisk =
      (.error (.source "product certificate 69" "down"), d') ∧
    Failure uncertifiedExporter sampleConsumer (.full none none none) sampleMoment ["a"] sampleDisk
      (.source "product certificate 69" "down") d' := by
  have short : sampleConsumer.uuid.utf8ByteSize ≤ uuidLimit := by decide +kernel
  obtain ⟨d', ran⟩ := uncertified_run
  exact ⟨sampleDisk_grounded, short, d', ran,
    export_stops_at_first_failure sampleDisk_grounded short ran⟩

end Exporter
end SignedManifest
