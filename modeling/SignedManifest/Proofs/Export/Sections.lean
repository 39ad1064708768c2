import Mathlib.Data.List.Nodup
import SignedManifest.Proofs.Export.Closure
import SignedManifest.Proofs.Export.Rosters

/-!
What the steps of an export write once none of them fails. Each step has a directory of its own, so
the last write to a file is the last one of its step.
-/
namespace SignedManifest

namespace Plan

/-! ### Plans without failures -/

def Clean (plan : Plan) : Prop := ∀ e, .fail e ∉ plan

variable {d d' : Disk} {root : String} {plan rest : Plan}

theorem run_clean (ran : plan.run root d = (.ok (), d')) : plan.Clean := by
  induction plan generalizing d with
  | nil => nofun
  | cons a rest ih =>
    simp only [run] at ran
    split at ran
    · rename_i done
      intro e member
      rcases List.mem_cons.mp member with rfl | member
      · cases done
      · exact ih ran e member
    · rename_i failed
      exact absurd ran (failed _)

@[simp] theorem clean_append : Clean (plan ++ rest) ↔ plan.Clean ∧ rest.Clean := by
  simp [Clean, forall_and]

theorem clean_cons {a : Action} : Clean (a :: rest) ↔ (∀ e, a ≠ .fail e) ∧ rest.Clean := by
  simp [Clean, forall_and, eq_comm]

@[simp] theorem writes_append (plan rest : Plan) :
    writes (plan ++ rest) = plan.writes ++ rest.writes := by
  simp [writes]

theorem clean_onLookup {α : Type} {context : String} {result : Except String α} {f : α → Plan}
    (clean : Clean (Roster.onLookup context result f)) : ∃ b, result = .ok b ∧ (f b).Clean := by
  cases result with
  | ok b => exact ⟨b, rfl, clean⟩
  | error cause => exact absurd (List.mem_singleton_self _) (clean _)

end Plan

/-! ### Files of records -/

def recordFile (dir stem extension : String) : Place := [dir, stem ++ "." ++ extension]

def recordWrites {α : Type} (dir extension : String) (stem : α → String) (content : α → FileContent)
    (l : List α) : List (Place × ByteArray) :=
  l.map fun a => (recordFile dir (stem a) extension, (content a).bytes)

section
variable {α : Type} {dir extension : String} {stem : α → String} {content : α → FileContent}
  {l : List α}

theorem Action.record_written {stem : String} {content : FileContent}
    (clean : ∀ e, Action.record dir stem extension content ≠ .fail e) :
    (Action.record dir stem extension content).written? =
      some (recordFile dir stem extension, content.bytes) := by
  unfold Action.record at clean ⊢
  split
  · rfl
  · rename_i spoilt
    exact absurd (if_neg spoilt) (clean _)

theorem Plan.writes_records (stem : α → String) (content : α → FileContent)
    (clean : Plan.Clean (l.map fun a => Action.record dir (stem a) extension (content a))) :
    Plan.writes (l.map fun a => Action.record dir (stem a) extension (content a)) =
      recordWrites dir extension stem content l := by
  rw [Plan.writes, recordWrites, List.filterMap_map, ← List.filterMap_eq_map]
  refine List.filterMap_congr fun a member => ?_
  exact Action.record_written fun e same => clean e (List.mem_map.mpr ⟨a, member, same⟩)

theorem isLast_recordWrites {place : Place} {bytes : ByteArray} :
    IsLast Prod.fst (recordWrites dir extension stem content l) (place, bytes) ↔
      ∃ a, IsLast stem l a ∧ place = recordFile dir (stem a) extension ∧
        bytes = (content a).bytes := by
  have mapped : IsLast Prod.fst (recordWrites dir extension stem content l) (place, bytes) ↔
      ∃ a, IsLast stem l a ∧ (recordFile dir (stem a) extension, (content a).bytes) = (place, bytes) :=
    isLast_map fun a b => by simp [recordFile]
  rw [mapped]
  simp [eq_comm]

theorem records_isLast {place : Place} {bytes : ByteArray}
    (clean : Plan.Clean (l.map fun a => Action.record dir (stem a) extension (content a))) :
    IsLast Prod.fst (Plan.writes (l.map fun a => .record dir (stem a) extension (content a)))
        (place, bytes) ↔
      ∃ a, IsLast stem l a ∧ place = recordFile dir (stem a) extension ∧
        bytes = (content a).bytes := by
  rw [Plan.writes_records stem content clean, isLast_recordWrites]

end

/-! ### Steps -/

namespace Plan

abbrev Steps := List (String × Plan)

/-- Every step keeps to its directory, and no two steps share one. -/
structure Apart (steps : Steps) : Prop where
  fills : ∀ s ∈ steps, s.2.Fills s.1
  distinct : (steps.map Prod.fst).Nodup

variable {d d' : Disk} {root base top : String} {B : Place} {r : Except ExportError Unit}
  {plan : Plan} {steps rest : Steps} {w : Place × ByteArray}

theorem Fills.inside {folder : String} (fills : plan.Fills folder) (member : w ∈ plan.writes) :
    w.1.head? = some folder := by
  obtain ⟨a, action, written⟩ := List.mem_filterMap.mp member
  cases fills a action with
  | write _ inside =>
    cases written
    exact inside
  | fail e => cases written

theorem Apart.sound (apart : Apart steps) : Sound (steps.flatMap Prod.snd) := by
  intro a member
  obtain ⟨s, step, action⟩ := List.mem_flatMap.mp member
  exact (apart.fills s step).sound a action

theorem Apart.direct (apart : Apart steps) : ∀ a ∈ steps.flatMap Prod.snd, ∀ s n, a ≠ .copy s n := by
  rintro a member source names rfl
  obtain ⟨s, step, action⟩ := List.mem_flatMap.mp member
  cases apart.fills s step _ action

theorem Clean.step (clean : Clean (steps.flatMap Prod.snd)) {s : String × Plan}
    (member : s ∈ steps) : Clean s.2 :=
  fun e failed => clean e (List.mem_flatMap.mpr ⟨s, member, failed⟩)

theorem Apart.left (apart : Apart (steps ++ rest)) : Apart steps :=
  ⟨fun s member => apart.fills s (List.mem_append_left _ member),
    (List.nodup_append.mp (List.map_append ▸ apart.distinct)).1⟩

theorem Apart.right (apart : Apart (steps ++ rest)) : Apart rest :=
  ⟨fun s member => apart.fills s (List.mem_append_right _ member),
    (List.nodup_append.mp (List.map_append ▸ apart.distinct)).2.1⟩

theorem mem_writes : w ∈ writes (steps.flatMap Prod.snd) ↔ ∃ s ∈ steps, w ∈ s.2.writes := by
  simp [writes, List.filterMap_flatMap]

theorem Apart.place_ne {v : Place × ByteArray} (apart : Apart (steps ++ rest))
    (first : v ∈ writes (steps.flatMap Prod.snd)) (second : w ∈ writes (rest.flatMap Prod.snd)) :
    v.1 ≠ w.1 := by
  intro same
  obtain ⟨s, one, wrote⟩ := mem_writes.mp first
  obtain ⟨t, two, wrote'⟩ := mem_writes.mp second
  have head := (apart.left.fills s one).inside wrote
  have head' := (apart.right.fills t two).inside wrote'
  have folder : s.1 = t.1 := Option.some.inj (head.symm.trans (same ▸ head'))
  have distinct := List.map_append ▸ apart.distinct
  exact (List.nodup_append.mp distinct).2.2 _ (List.mem_map_of_mem one) _
    (List.mem_map_of_mem two) folder

theorem Apart.isLast (apart : Apart steps) :
    IsLast Prod.fst (writes (steps.flatMap Prod.snd)) w ↔
      ∃ s ∈ steps, IsLast Prod.fst s.2.writes w := by
  induction steps with
  | nil => simpa [writes] using fun last : IsLast Prod.fst [] w => by simpa using last.mem
  | cons s steps ih =>
    rw [← List.singleton_append] at apart
    rw [List.flatMap_cons, writes_append, isLast_append, ih apart.right]
    simp only [List.mem_cons, exists_eq_or_imp]
    refine ⟨fun found => found.symm.imp_left And.left, fun found => ?_⟩
    refine found.symm.imp_right fun last => ⟨last, fun v member => ?_⟩
    exact (apart.place_ne (by simpa using last.mem) member).symm

theorem Apart.isLast_inside {s : String × Plan} (apart : Apart steps) (member : s ∈ steps)
    (inside : w.1.head? = some s.1) :
    IsLast Prod.fst (writes (steps.flatMap Prod.snd)) w ↔ IsLast Prod.fst s.2.writes w := by
  rw [apart.isLast]
  refine ⟨fun ⟨t, listed, last⟩ => ?_, fun last => ⟨s, member, last⟩⟩
  have folder : some t.1 = some s.1 := ((apart.fills t listed).inside last.mem).symm.trans inside
  obtain rfl := List.inj_on_of_nodup_map apart.distinct listed member (Option.some.inj folder)
  exact last

end Plan

namespace Roster
open Plan

theorem tidy_of_clean {rules : ExportRules} {es : List Entitlement}
    (clean : (entitlementsPlan rules es).Clean) : ∀ e ∈ es, e.dirty = false := by
  induction es with
  | nil => simp
  | cons e es ih =>
    simp only [entitlementsPlan] at clean
    split at clean
    · exact absurd (List.mem_singleton_self _) (clean _)
    rename_i tidy
    refine List.forall_mem_cons.mpr ⟨Bool.eq_false_iff.mpr tidy, ih ?_⟩
    split at clean
    · exact fun e member => clean e (List.mem_cons_of_mem _ member)
    · exact clean

theorem entitlementsPlan_tidy {rules : ExportRules} {es : List Entitlement}
    (tidy : ∀ e ∈ es, e.dirty = false) :
    entitlementsPlan rules es = (es.filter rules).map fun e =>
      .record "entitlements" e.id "json" (.ofRecord (Entitlement.layout.json e)) := by
  induction es with
  | nil => rfl
  | cons e es ih =>
    obtain ⟨here, later⟩ := List.forall_mem_cons.mp tidy
    simp only [entitlementsPlan, here, Bool.false_eq_true, ↓reduceIte, ih later]
    split
    · rename_i accepted
      rw [List.filter_cons_of_pos accepted, List.map_cons]
    · rename_i rejected
      rw [List.filter_cons_of_neg rejected]

theorem entitlementsPlan_clean {rules : ExportRules} {es : List Entitlement}
    (clean : (entitlementsPlan rules es).Clean) :
    entitlementsPlan rules es = (es.filter rules).map fun e =>
      .record "entitlements" e.id "json" (.ofRecord (Entitlement.layout.json e)) :=
  entitlementsPlan_tidy (tidy_of_clean clean)

theorem stem_inj {a b : UInt64} : toString a.toNat = toString b.toNat ↔ a = b := by
  refine ⟨fun same => UInt64.toNat_inj.mp ?_, fun same => same ▸ rfl⟩
  have read := congrArg (fun s : String => Nat.ofDigitChars 10 s.toList 0) same
  simpa [Nat.toString_eq_ofList_toDigits] using read

theorem isLast_serial {l : List Certificate} {c : Certificate} :
    IsLast (fun c : Certificate => toString c.serial.id.toNat) l c ↔
      IsLast (fun c : Certificate => c.serial.id) l c :=
  isLast_congr fun _ _ => stem_inj

theorem select_accepted (rules : ExportRules) (es : List Entitlement) :
    CertificateFilter.select ⟨none, some rules⟩ es =
      (es.filter rules).flatMap Entitlement.certificates := by
  have accepted : CertificateFilter.allowsEntitlement ⟨none, some rules⟩ = rules := by
    funext e
    simp [CertificateFilter.allowsEntitlement]
  simp [CertificateFilter.select, accepted, CertificateFilter.allowsSerial]

/-! ### Products -/

def certificateOf (source : Source) (owner : String) (p : Product) : Option ProductCertificate :=
  if p.isEngineering then (source.productCertificate owner p.id).toOption.join else none

theorem productPlan_clean {source : Source} {owner : String} {p : Product}
    (clean : (productPlan source owner p).Clean) :
    productPlan source owner p = .record "products" p.id "json" (.ofRecord p.json) ::
      (certificateOf source owner p).toList.map fun c =>
        .record "products" p.id "pem" (.text [c.cert]) := by
  unfold productPlan at clean ⊢
  cases machine : p.isEngineering with
  | false => simp [certificateOf, machine]
  | true =>
    rw [machine, if_pos rfl] at clean
    obtain ⟨cert, found, _⟩ := clean_onLookup (clean_cons.mp clean).2
    cases cert <;> simp [certificateOf, machine, found, onLookup, Except.toOption]

theorem isEngineering_iff {p : Product} :
    p.isEngineering = true ↔ p.id ≠ "" ∧ ∀ c ∈ p.id.toList, '0' ≤ c ∧ c ≤ '9' := by
  simp [Product.isEngineering, Text.isDigit]

theorem certificateOf_some {source : Source} {owner : String} {p : Product}
    {c : ProductCertificate} :
    certificateOf source owner p = some c ↔
      p.isEngineering = true ∧ source.productCertificate owner p.id = .ok (some c) := by
  unfold certificateOf
  rcases source.productCertificate owner p.id with e | cert <;>
    cases p.isEngineering <;> simp [Except.toOption]

def productWrites (source : Source) (owner : String) (p : Product) : List (Place × ByteArray) :=
  recordWrites "products" "json" Product.id (fun p => .ofRecord p.json) [p] ++
    recordWrites "products" "pem" (fun _ => p.id) (fun c => .text [c.cert])
      (certificateOf source owner p).toList

theorem productPlan_writes {source : Source} {owner : String} {p : Product}
    (clean : (productPlan source owner p).Clean) :
    (productPlan source owner p).writes = productWrites source owner p := by
  have spelled := productPlan_clean clean
  rw [spelled, ← List.singleton_append] at clean ⊢
  obtain ⟨first, second⟩ := clean_append.mp clean
  have json : writes [.record "products" p.id "json" (.ofRecord p.json)] =
      recordWrites "products" "json" Product.id (fun p => .ofRecord p.json) [p] :=
    writes_records (l := [p]) Product.id (fun p => .ofRecord p.json) first
  rw [writes_append, json, writes_records _ _ second]
  rfl

theorem productsPlan_writes {source : Source} {owner : String} {es : List Entitlement}
    (clean : (productsPlan source owner es).Clean) :
    (productsPlan source owner es).writes =
      (productClosure es).values.flatMap (productWrites source owner) := by
  rw [productsPlan, writes, List.filterMap_flatMap]
  refine List.flatMap_congr fun p member => productPlan_writes fun e failed => ?_
  exact clean e (List.mem_flatMap.mpr ⟨p, member, failed⟩)

theorem mem_productWrites {source : Source} {owner : String} {p : Product} {place : Place}
    {bytes : ByteArray} :
    (place, bytes) ∈ productWrites source owner p ↔
      place = recordFile "products" p.id "json" ∧ bytes = (FileContent.ofRecord p.json).bytes ∨
        ∃ c, certificateOf source owner p = some c ∧ place = recordFile "products" p.id "pem" ∧
          bytes = (FileContent.text [c.cert]).bytes := by
  simp [productWrites, recordWrites, eq_comm]

theorem json_ne_pem (dir s t : String) : recordFile dir s "json" ≠ recordFile dir t "pem" := by
  intro same
  have ends := congrArg (fun s => s.toList.getLast?) (List.cons.inj (List.cons.inj same).2).1
  simp at ends

theorem productWrites_places {source : Source} {owner : String} {p : Product} {place : Place}
    (member : place ∈ (productWrites source owner p).map Prod.fst) :
    place = recordFile "products" p.id "json" ∨ place = recordFile "products" p.id "pem" := by
  obtain ⟨⟨place, bytes⟩, written, rfl⟩ := List.mem_map.mp member
  rcases mem_productWrites.mp written with ⟨here, _⟩ | ⟨_, _, here, _⟩
  · exact .inl here
  · exact .inr here

theorem productWrites_nodup (source : Source) (owner : String) (p : Product) :
    ((productWrites source owner p).map Prod.fst).Nodup := by
  have apart := json_ne_pem "products" p.id p.id
  cases found : certificateOf source owner p with
  | none => simp [productWrites, recordWrites, found]
  | some c => simp [productWrites, recordWrites, found, apart]

theorem productWrites_disjoint {source : Source} {owner : String} {p q : Product}
    (distinct : p.id ≠ q.id) : List.Disjoint ((productWrites source owner p).map Prod.fst)
      ((productWrites source owner q).map Prod.fst) := by
  intro place first second
  rcases productWrites_places first with rfl | rfl <;>
    rcases productWrites_places second with same | same
  · exact distinct (by simpa [recordFile] using same)
  · exact json_ne_pem _ _ _ same
  · exact json_ne_pem _ _ _ same.symm
  · exact distinct (by simpa [recordFile] using same)

/- Ids are distinct in the closure, so no product's file is written twice. -/
theorem productsPlan_isLast {source : Source} {owner : String} {es : List Entitlement}
    {w : Place × ByteArray} (clean : (productsPlan source owner es).Clean) :
    IsLast Prod.fst (productsPlan source owner es).writes w ↔
      ∃ p, (productClosure es).get? p.id = some p ∧ w ∈ productWrites source owner p := by
  rw [productsPlan_writes clean, isLast_of_nodup]
  · simp [List.mem_flatMap, mem_productClosure_values]
  · rw [List.map_flatMap, List.nodup_flatMap]
    refine ⟨fun p _ => productWrites_nodup source owner p, ?_⟩
    exact (List.pairwise_map.mp (productClosure_ids_nodup es)).imp productWrites_disjoint

end Roster

end SignedManifest
