import SignedManifest.Export.Exporter
import SignedManifest.Proofs.Export.Runs

/-!
Where the steps of an export write. Every step keeps to its own directory of the tree, under names
that are components whatever the records say.
-/
namespace SignedManifest
open SignedManifest.Path

/-! ### Names of records -/

theorem ne_sibling {s t : String} {x : Char} (last : t.toList.getLast? = some x) (other : x ≠ 'p') :
    t ≠ s ++ ".tmp" := by
  rintro rfl
  simp at last
  exact other last.symm

inductive IsExtension : String → Prop where
  | json : IsExtension "json"
  | pem : IsExtension "pem"

theorem IsExtension.ends {extension : String} (known : IsExtension extension) (stem : String) :
    ∃ x, (stem ++ "." ++ extension).toList.getLast? = some x ∧ x ≠ 'p' := by
  cases known
  · exact ⟨'n', by simp, by decide⟩
  · exact ⟨'m', by simp, by decide⟩

theorem record_component {stem extension : String} (plain : IsComponent stem)
    (known : IsExtension extension) : IsComponent (stem ++ "." ++ extension) := by
  cases known
  · exact isComponent_of_mem (x := 'n') (by simp) (by decide) (by simp [plain.whole])
  · exact isComponent_of_mem (x := 'm') (by simp) (by decide) (by simp [plain.whole])

theorem record_isFilePlace {dir stem extension : String} (c : IsComponent dir)
    (plain : IsComponent stem) (known : IsExtension extension) :
    IsFilePlace [dir, stem ++ "." ++ extension] := by
  refine ⟨by simp, by simpa using ⟨c, record_component plain known⟩, fun s same => ?_⟩
  obtain ⟨x, last, other⟩ := known.ends stem
  exact ne_sibling last other (by simpa using same)

/-! ### Directories of steps -/

inductive Action.IsRecord (dir : String) : Action → Prop where
  | record {stem extension : String} {content : FileContent} (known : IsExtension extension) :
      IsRecord dir (.record dir stem extension content)
  | fail (error : ExportError) : IsRecord dir (.fail error)

/-- An action that writes nothing but a file of one directory, or the one file of that name. -/
inductive Action.Fills (folder : String) : Action → Prop where
  | write {names : Place} {content : FileContent} (place : IsFilePlace names)
      (inside : names.head? = some folder) : Fills folder (.write names content)
  | fail (error : ExportError) : Fills folder (.fail error)

theorem Action.record_fills {dir stem extension : String} (content : FileContent)
    (c : IsComponent dir) (known : IsExtension extension) :
    (Action.record dir stem extension content).Fills dir := by
  unfold Action.record
  split
  · rename_i plain
    exact .write (record_isFilePlace c (isComponent_of_plain plain) known) rfl
  · exact .fail _

namespace Plan

def Records (dir : String) (plan : Plan) : Prop := ∀ a ∈ plan, a.IsRecord dir

def Fills (folder : String) (plan : Plan) : Prop := ∀ a ∈ plan, a.Fills folder

variable {folder : String}

theorem Records.fills {plan : Plan} (records : plan.Records folder) (c : IsComponent folder) :
    plan.Fills folder := by
  intro a member
  cases records a member with
  | record known => exact Action.record_fills _ c known
  | fail e => exact .fail e

theorem Fills.sound {plan : Plan} (fills : plan.Fills folder) : plan.Sound := by
  intro a member names filled
  cases fills a member with
  | write place _ =>
    cases filled
    exact place
  | fail e => cases filled

theorem sound_append {plan rest : Plan} : Sound (plan ++ rest) ↔ plan.Sound ∧ rest.Sound := by
  simp only [Sound, List.mem_append, or_imp, forall_and]

theorem write_fills {names : Place} {content : FileContent} (place : IsFilePlace names)
    (inside : names.head? = some folder) : Fills folder [.write names content] := by
  intro a member
  obtain rfl := List.mem_singleton.mp member
  exact .write place inside

theorem records_map {α : Type} {l : List α} {f : α → Action} (each : ∀ a, (f a).IsRecord folder) :
    Records folder (l.map f) := by
  intro a member
  obtain ⟨b, _, rfl⟩ := List.mem_map.mp member
  exact each b

theorem mem_onLookup {α : Type} {context : String} {result : Except String α} {f : α → Plan}
    {a : Action} (member : a ∈ Roster.onLookup context result f) :
    (∃ b, a ∈ f b) ∨ ∃ e, a = .fail e := by
  unfold Roster.onLookup at member
  split at member
  · exact .inl ⟨_, member⟩
  · exact .inr ⟨_, List.mem_singleton.mp member⟩

theorem records_onLookup {α : Type} {context : String} {result : Except String α} {f : α → Plan}
    (each : ∀ b, (f b).Records folder) : (Roster.onLookup context result f).Records folder := by
  intro a member
  rcases mem_onLookup member with ⟨b, member⟩ | ⟨e, rfl⟩
  · exact each b a member
  · exact .fail e

theorem fills_onLookup {α : Type} {context : String} {result : Except String α} {f : α → Plan}
    (each : ∀ b, (f b).Fills folder) : (Roster.onLookup context result f).Fills folder := by
  intro a member
  rcases mem_onLookup member with ⟨b, member⟩ | ⟨e, rfl⟩
  · exact each b a member
  · exact .fail e

theorem sound_onLookup {α : Type} {context : String} {result : Except String α} {f : α → Plan}
    (each : ∀ b, (f b).Sound) : (Roster.onLookup context result f).Sound := by
  intro a member
  rcases mem_onLookup member with ⟨b, member⟩ | ⟨e, rfl⟩
  · exact each b a member
  · nofun

end Plan

/-! ### Steps -/

theorem fixed_isFilePlace (names : Place) (last : String) {x : Char}
    (plain : ∀ s ∈ names ++ [last], IsComponent s) (ends : last.toList.getLast? = some x)
    (other : x ≠ 'p') : IsFilePlace (names ++ [last]) :=
  ⟨by simp, plain, fun _ same => ne_sibling ends other (by simpa using same)⟩

namespace Roster
open Plan

theorem metaPlan_fills (m : Meta) : (metaPlan m).Fills "meta.json" :=
  write_fills (fixed_isFilePlace [] _ (x := 'n') (by simp; constructor <;> decide)
    (by decide) (by decide)) rfl

theorem consumerPlan_fills (c : ConsumerRecord) : (consumerPlan c).Fills "consumer.json" :=
  write_fills (fixed_isFilePlace [] _ (x := 'n') (by simp; constructor <;> decide)
    (by decide) (by decide)) rfl

theorem identityPlan_records (cert : Option Certificate) :
    (identityPlan cert).Records "upstream_consumer" :=
  records_map fun _ => .record .json

theorem entitlementsPlan_records (rules : ExportRules) (es : List Entitlement) :
    (entitlementsPlan rules es).Records "entitlements" := by
  induction es with
  | nil => nofun
  | cons e es ih =>
    intro a member
    simp only [entitlementsPlan] at member
    split at member
    · obtain rfl := List.mem_singleton.mp member
      exact .fail _
    split at member
    · rcases List.mem_cons.mp member with rfl | member
      · exact .record .json
      · exact ih a member
    · exact ih a member

theorem certificatesPlan_records (f : CertificateFilter) (es : List Entitlement) :
    (certificatesPlan f es).Records "entitlement_certificates" :=
  records_map fun _ => .record .pem

theorem contentAccessPlan_records (cert : Option Certificate) :
    (contentAccessPlan cert).Records "content_access_certificates" :=
  records_map fun _ => .record .pem

theorem productPlan_records (source : Source) (owner : String) (p : Product) :
    (productPlan source owner p).Records "products" := by
  intro a member
  rcases List.mem_cons.mp member with rfl | member
  · exact .record .json
  · split at member
    · exact records_onLookup (fun cert => records_map fun _ => .record .pem) a member
    · cases member

theorem productsPlan_records (source : Source) (owner : String) (es : List Entitlement) :
    (productsPlan source owner es).Records "products" := by
  intro a member
  obtain ⟨p, _, member⟩ := List.mem_flatMap.mp member
  exact productPlan_records source owner p a member

theorem consumerTypesPlan_records (ts : List ConsumerType) :
    (consumerTypesPlan ts).Records "consumer_types" :=
  records_map fun _ => .record .json

theorem distributorVersionsPlan_records (vs : List DistributorVersion) :
    (distributorVersionsPlan vs).Records "distributor_version" :=
  records_map fun _ => .record .json

theorem cdnsPlan_records (cs : List Cdn) : (cdnsPlan cs).Records "content_delivery_network" :=
  records_map fun _ => .record .json

theorem identityPlan_fills (cert : Option Certificate) :
    (identityPlan cert).Fills "upstream_consumer" :=
  (identityPlan_records cert).fills (by constructor <;> decide)

theorem entitlementsPlan_fills (rules : ExportRules) (es : List Entitlement) :
    (entitlementsPlan rules es).Fills "entitlements" :=
  (entitlementsPlan_records rules es).fills (by constructor <;> decide)

theorem certificatesPlan_fills (f : CertificateFilter) (es : List Entitlement) :
    (certificatesPlan f es).Fills "entitlement_certificates" :=
  (certificatesPlan_records f es).fills (by constructor <;> decide)

theorem contentAccessPlan_fills (cert : Option Certificate) :
    (contentAccessPlan cert).Fills "content_access_certificates" :=
  (contentAccessPlan_records cert).fills (by constructor <;> decide)

theorem productsPlan_fills (source : Source) (owner : String) (es : List Entitlement) :
    (productsPlan source owner es).Fills "products" :=
  (productsPlan_records source owner es).fills (by constructor <;> decide)

theorem consumerTypesPlan_fills (ts : List ConsumerType) :
    (consumerTypesPlan ts).Fills "consumer_types" :=
  (consumerTypesPlan_records ts).fills (by constructor <;> decide)

theorem distributorVersionsPlan_fills (vs : List DistributorVersion) :
    (distributorVersionsPlan vs).Fills "distributor_version" :=
  (distributorVersionsPlan_records vs).fills (by constructor <;> decide)

theorem cdnsPlan_fills (cs : List Cdn) : (cdnsPlan cs).Fills "content_delivery_network" :=
  (cdnsPlan_records cs).fills (by constructor <;> decide)

theorem rulesFile_isFilePlace : IsFilePlace ["rules2", "rules.js"] :=
  fixed_isFilePlace ["rules2"] _ (x := 's') (by simp; constructor <;> constructor <;> decide)
    (by decide) (by decide)

theorem legacyRulesFile_isFilePlace : IsFilePlace ["rules", "default-rules.js"] :=
  fixed_isFilePlace ["rules"] _ (x := 's') (by simp; constructor <;> constructor <;> decide)
    (by decide) (by decide)

theorem rulesPlan_sound (rules : Rules) (legacy : LegacyRules) : (rulesPlan rules legacy).Sound := by
  intro a member names filled
  simp only [rulesPlan, List.mem_cons, List.not_mem_nil, or_false] at member
  rcases member with rfl | rfl
  · cases filled
    exact rulesFile_isFilePlace
  · cases legacy
    all_goals
      cases filled
      exact legacyRulesFile_isFilePlace

end Roster

open Plan Roster in
/- Whatever the records hold, all that an export writes lies in its tree, under final names. -/
theorem Exporter.plan_sound (x : Exporter) (consumer : Consumer) (es : List Entitlement)
    (now : Moment) (scope : Scope) : (x.plan consumer es now scope).Sound := by
  cases scope with
  | full cdn web api =>
    simp only [Exporter.plan, sound_append, and_assoc]
    exact ⟨(metaPlan_fills _).sound, (consumerPlan_fills _).sound, (identityPlan_fills _).sound,
      (entitlementsPlan_fills _ _).sound, (certificatesPlan_fills _ _).sound,
      (productsPlan_fills _ _ _).sound, (fills_onLookup consumerTypesPlan_fills).sound,
      sound_onLookup fun rules => rulesPlan_sound rules _,
      (fills_onLookup distributorVersionsPlan_fills).sound, (fills_onLookup cdnsPlan_fills).sound⟩
  | certificates serials =>
    simp only [Exporter.plan, sound_append, and_assoc]
    exact ⟨(metaPlan_fills _).sound, (certificatesPlan_fills _ _).sound,
      (fills_onLookup contentAccessPlan_fills).sound⟩

end SignedManifest
