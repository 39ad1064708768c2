import SignedManifest.Proofs.Export.Trees

/-!
The gate for dirty entitlements. A dirty entitlement stops every full export before anything is packed,
and the accepted ones before it are what the entitlements step has written by then.
-/
namespace SignedManifest
open SignedManifest.Path Disk

def Disk.NoArchives (d : Disk) (p : Place) : Prop :=
  ∀ above s bytes, (above ++ [s], bytes) ∈ d.filesBelow p → ∀ stem, s ≠ stem ++ ".zip"

namespace Roster
open Plan

/- The step gives up at the first dirty entitlement, and the rest is not looked at. -/
theorem entitlementsPlan_dirty {rules : ExportRules} {front back : List Entitlement}
    {e : Entitlement} (tidy : ∀ f ∈ front, f.dirty = false) (dirty : e.dirty = true) :
    entitlementsPlan rules (front ++ e :: back) =
      entitlementsPlan rules front ++ [.fail (.dirtyEntitlement e.id)] := by
  induction front with
  | nil => simp [entitlementsPlan, dirty]
  | cons f front ih =>
    obtain ⟨here, later⟩ := List.forall_mem_cons.mp tidy
    simp only [List.cons_append, entitlementsPlan, here, Bool.false_eq_true, ↓reduceIte, ih later]
    split <;> rfl

end Roster

namespace Exporter
open Plan Roster

def preamble (x : Exporter) (consumer : Consumer) (cdn web api : Option String) (now : Moment) : Plan :=
  metaPlan ⟨x.settings.version, now, x.principal, none, cdn⟩ ++
    consumerPlan (.ofConsumer consumer (resolveUrl web x.settings.prefixWebUrl)
      (resolveUrl api x.settings.prefixApiUrl)) ++
    identityPlan consumer.idCert

section
variable {x : Exporter} {consumer : Consumer} {cdn web api : Option String} {now : Moment}
  {names : List String} {d d' opened filled begun mid : Disk} {area : String} {A : Place}
  {es front : List Entitlement} {r : Except ExportError String}

theorem tidy_of_run {root : String}
    (ran : (x.plan consumer es now (.full cdn web api)).run root d = (.ok (), d')) :
    ∀ e ∈ es, e.dirty = false := by
  have clean := run_clean ran
  simp only [plan, clean_append] at clean
  exact tidy_of_clean clean.1.1.1.1.1.1.2

theorem run_of_dirty (x : Exporter) (consumer : Consumer) (cdn web api : Option String) (now : Moment)
    (root : String) (d : Disk) {e : Entitlement} (member : e ∈ es) (dirty : e.dirty = true) :
    ∃ err d', (x.plan consumer es now (.full cdn web api)).run root d = (.error err, d') := by
  rcases ran : (x.plan consumer es now (.full cdn web api)).run root d with ⟨_ | _, d'⟩
  · exact ⟨_, _, rfl⟩
  · rw [tidy_of_run ran e member] at dirty
    cases dirty

theorem plan_dirty (x : Exporter) (consumer : Consumer) (cdn web api : Option String) (now : Moment)
    (back : List Entitlement) {e : Entitlement} (tidy : ∀ f ∈ front, f.dirty = false)
    (dirty : e.dirty = true) : ∃ rest,
      x.plan consumer (front ++ e :: back) now (.full cdn web api) =
        x.preamble consumer cdn web api now ++ entitlementsPlan x.rules front ++
          .fail (.dirtyEntitlement e.id) :: rest := by
  simp only [plan, preamble, entitlementsPlan_dirty tidy dirty, List.append_assoc, List.cons_append,
    List.nil_append]
  exact ⟨_, rfl⟩

theorem Left.noArchives {done : Plan} (left : Left area A opened done d') : d'.NoArchives A := by
  intro above s bytes member stem
  obtain ⟨_, held⟩ := mem_filesBelow.mp member
  exact (left.final above s bytes held stem).2

theorem entitlements_written (fresh : Opened d x.settings.workDir names area A opened)
    (grounded : d.Grounded) (tidy : ∀ f ∈ front, f.dirty = false)
    (before : (x.preamble consumer cdn web api now).run (join area treeName) opened = (.ok (), begun))
    (ran : (entitlementsPlan x.rules front).run (join area treeName) begun = (.ok (), mid))
    (place : Place) (bytes : ByteArray) :
    ("entitlements" :: place, bytes) ∈ mid.filesBelow (A ++ [treeName]) ↔
      ∃ f, IsLast Entitlement.id (front.filter x.rules) f ∧ place = [f.id ++ ".json"] ∧
        bytes = (Entitlement.layout.json f).sorted.text.toUTF8 := by
  have apart : Apart [("meta.json", metaPlan ⟨x.settings.version, now, x.principal, none, cdn⟩),
      ("consumer.json", consumerPlan (.ofConsumer consumer (resolveUrl web x.settings.prefixWebUrl)
        (resolveUrl api x.settings.prefixApiUrl))),
      ("upstream_consumer", identityPlan consumer.idCert),
      ("entitlements", entitlementsPlan x.rules front)] := by
    refine ⟨?_, by simp⟩
    simp only [List.forall_mem_cons, List.not_mem_nil, false_imp_iff, implies_true, and_true]
    exact ⟨metaPlan_fills _, consumerPlan_fills _, identityPlan_fills _, entitlementsPlan_fills _ _⟩
  have whole := run_append_ok.mpr ⟨begun, before, ran⟩
  have steps := Plan.run_tree fresh.leads treeName_component apart.sound apart.direct
    (by simpa [preamble] using whole) (fresh.tree_empty grounded) (by simp)
  rw [mem_filesBelow, steps, List.nil_append, apart.isLast_inside
    (s := ("entitlements", entitlementsPlan x.rules front)) (by simp) rfl]
  have clean := run_clean ran
  simp only [entitlementsPlan_tidy tidy] at clean ⊢
  rw [records_isLast clean]
  simp [recordFile, json_bytes, String.append_assoc]

theorem run_stopped {err : ExportError} {scope : Scope}
    (opens : openArea d x.settings.workDir names = (.ok area, opened))
    (listed : x.source.entitlements consumer = .ok es)
    (failed : (x.plan consumer es now scope).run (join area treeName) opened = (.error err, mid)) :
    x.run consumer scope now names d = (.error err, mid) := by
  simp [run, opens, listed, failed]

theorem run_first_dirty (back : List Entitlement) {e : Entitlement}
    (tidy : ∀ f ∈ front, f.dirty = false) (dirty : e.dirty = true)
    (before : (x.preamble consumer cdn web api now).run (join area treeName) opened = (.ok (), begun))
    (ran : (entitlementsPlan x.rules front).run (join area treeName) begun = (.ok (), mid)) :
    (x.plan consumer (front ++ e :: back) now (.full cdn web api)).run (join area treeName) opened =
      (.error (.dirtyEntitlement e.id), mid) := by
  obtain ⟨rest, spelled⟩ := plan_dirty x consumer cdn web api now back tidy dirty
  rw [spelled]
  exact run_error.mpr ⟨_, _, rest, mid, rfl, run_append_ok.mpr ⟨begun, before, ran⟩, rfl⟩

/- No full export gets past a dirty entitlement. Whether or not the rules accept it, the export fails and
   nothing is packed; if nothing fails before it, its id is the error, and what the directory of the
   entitlements holds then are the accepted entitlements before it, by id the last of them. -/
theorem dirty_gate (grounded : d.Grounded) (listed : x.source.entitlements consumer = .ok es)
    (ran : x.run consumer (.full cdn web api) now names d = (r, d')) :
    (∀ path, r = .ok path → ∀ e ∈ es, e.dirty = false) ∧
    ((∃ e ∈ es, e.dirty = true) → (∃ err, r = .error err) ∧
      ∀ area opened, openArea d x.settings.workDir names = (.ok area, opened) →
        ∃ A, d'.Leads area A ∧ d'.NoArchives A) ∧
    ∀ front e back area opened begun mid, es = front ++ e :: back → (∀ f ∈ front, f.dirty = false) →
      e.dirty = true → openArea d x.settings.workDir names = (.ok area, opened) →
      (x.preamble consumer cdn web api now).run (join area treeName) opened = (.ok (), begun) →
      Plan.run (join area treeName) begun ((front.filter x.rules).map fun f =>
        .record "entitlements" f.id "json" (.ofRecord (Entitlement.layout.json f))) = (.ok (), mid) →
      r = .error (.dirtyEntitlement e.id) ∧ (ExportError.dirtyEntitlement e.id).exitCode = 3 ∧
        ∃ A, d'.Leads area A ∧ ∀ place bytes,
          ("entitlements" :: place, bytes) ∈ d'.filesBelow (A ++ [treeName]) ↔
            ∃ f, IsLast Entitlement.id (front.filter x.rules) f ∧ place = [f.id ++ ".json"] ∧
              bytes = (Entitlement.layout.json f).sorted.text.toUTF8 := by
  have passed : ∀ path, r = .ok path → ∀ e ∈ es, e.dirty = false := by
    rintro path rfl
    obtain ⟨_, _, _, _, _, _, _, _, f⟩ := run_finished ran
    obtain rfl := Except.ok.inj (listed.symm.trans f.listed)
    exact tidy_of_run f.ran
  refine ⟨passed, fun ⟨e, member, dirty⟩ => ⟨?_, ?_⟩, ?_⟩
  · cases r with
    | error err => exact ⟨err, rfl⟩
    | ok path =>
      rw [passed path rfl e member] at dirty
      cases dirty
  · intro area opened opens
    obtain ⟨A, fresh⟩ := openArea_opens opens
    obtain ⟨err, left, failed⟩ :=
      run_of_dirty x consumer cdn web api now (join area treeName) opened member dirty
    cases ran.symm.trans (run_stopped opens listed failed)
    have works := run_worksIn fresh.leads treeName_component (x.plan_sound consumer es now _) failed
    obtain ⟨_, _, _, _, _, _, _, remains⟩ := left_of_failed fresh grounded failed
    exact ⟨A, fresh.leads.kept works.keeps, remains.noArchives⟩
  · rintro front e back area opened begun mid rfl tidy dirty opens before through
    obtain ⟨A, fresh⟩ := openArea_opens opens
    rw [← entitlementsPlan_tidy tidy] at through
    have failed := run_first_dirty back tidy dirty before through
    cases ran.symm.trans (run_stopped opens listed failed)
    have works := run_worksIn fresh.leads treeName_component (x.plan_sound consumer _ now _) failed
    exact ⟨rfl, rfl, A, fresh.leads.kept works.keeps,
      entitlements_written fresh grounded tidy before through⟩

end

def gatedEntitlements : List Entitlement :=
  [{ id := "e1", quantity := 1,
     pool := { id := "p1", quantity := 5, product := { id := "69", name := "OS" } } },
   { id := "e2", quantity := 1, dirty := true,
     pool := { id := "p2", quantity := 5, product := { id := "70", name := "OS" },
               attributes := .ofList [(Pool.derivedAttribute, "true")] } }]

def gatedExporter : Exporter :=
  { sampleExporter with
    source := { sampleSource with entitlements := fun _ => .ok gatedEntitlements } }

theorem dirty_gate_sample : sampleDisk.Grounded ∧
    gatedExporter.source.entitlements sampleConsumer = .ok gatedEntitlements ∧ ∃ d',
    gatedExporter.run sampleConsumer (.full none none none) sampleMoment ["a"] sampleDisk =
      (.error (.dirtyEntitlement "e2"), d') ∧
    (∃ A, d'.Leads "/w/a" A ∧ d'.NoArchives A) ∧ ∃ A, d'.Leads "/w/a" A ∧ ∀ place bytes,
      ("entitlements" :: place, bytes) ∈ d'.filesBelow (A ++ [treeName]) ↔
        ∃ f, IsLast Entitlement.id (gatedEntitlements.take 1) f ∧ place = [f.id ++ ".json"] ∧
          bytes = (Entitlement.layout.json f).sorted.text.toUTF8 := by
  have listed : gatedExporter.source.entitlements sampleConsumer = .ok gatedEntitlements := rfl
  obtain ⟨opened, opens⟩ : ∃ opened, openArea sampleDisk "/w" ["a"] = (.ok "/w/a", opened) :=
    answered (by decide +kernel)
  obtain ⟨mid, through⟩ : ∃ mid, Plan.run (join "/w/a" treeName) (openArea sampleDisk "/w" ["a"]).2
      (gatedExporter.preamble sampleConsumer none none none sampleMoment ++
        ((gatedEntitlements.take 1).filter gatedExporter.rules).map fun f =>
          .record "entitlements" f.id "json" (.ofRecord (Entitlement.layout.json f))) = (.ok (), mid) :=
    answered (by decide +kernel)
  rw [opens] at through
  obtain ⟨begun, before, after⟩ := run_append_ok.mp through
  rcases ran : gatedExporter.run sampleConsumer (.full none none none) sampleMoment ["a"] sampleDisk
    with ⟨r, d'⟩
  obtain ⟨_, closed, first⟩ := dirty_gate sampleDisk_grounded listed ran
  obtain ⟨_, unpacked⟩ := closed ⟨_, List.mem_cons_of_mem _ (List.mem_singleton_self _), rfl⟩
  obtain ⟨rfl, _, holds⟩ := first (gatedEntitlements.take 1) _ [] "/w/a" opened begun mid rfl
    (by decide) rfl opens before after
  exact ⟨sampleDisk_grounded, listed, d', rfl, unpacked _ _ opens, holds⟩

end Exporter
end SignedManifest
