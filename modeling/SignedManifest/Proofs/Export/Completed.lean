import SignedManifest.Proofs.Archive.Packing
import SignedManifest.Proofs.Disk.Listing
import SignedManifest.Proofs.Export.Rosters
import SignedManifest.Proofs.Export.WorkArea

/-!
Exports that succeed, and the disks between their stages: the work area is opened, its tree is
filled, and the tree is packed.
-/
namespace SignedManifest.Exporter
open SignedManifest.Path Disk

theorem treeName_component : IsComponent treeName := by constructor <;> decide

/-- What an export went through that succeeded. `A` is its work area, and `S` the place of the signed
archive, anywhere. -/
structure Finished (x : Exporter) (consumer : Consumer) (scope : Scope) (now : Moment)
    (names : List String) (d : Disk) (path : String) (d' : Disk) (area : String) (A S : Place)
    (es : List Entitlement) (opened filled : Disk) (entries : List Zip.Entry)
    (signature : ByteArray) : Prop where
  opens : openArea d x.settings.workDir names = (.ok area, opened)
  fresh : Opened d x.settings.workDir names area A opened
  listed : x.source.entitlements consumer = .ok es
  ran : (x.plan consumer es now scope).run (join area treeName) opened = (.ok (), filled)
  packed : Packed filled consumer.uuid area (join area treeName) x.settings.entryNaming x.signer A S
    entries signature d'
  answer : path = join area (signedFileName consumer.uuid (join area treeName))

abbrev Completed (x : Exporter) (consumer : Consumer) (scope : Scope) (now : Moment)
    (names : List String) (d : Disk) (path : String) (d' : Disk) (area : String) (A : Place)
    (es : List Entitlement) (opened filled : Disk) (entries : List Zip.Entry)
    (signature : ByteArray) : Prop :=
  Finished x consumer scope now names d path d' area A
    (A ++ [signedFileName consumer.uuid (join area treeName)]) es opened filled entries signature

section
variable {x : Exporter} {consumer : Consumer} {scope : Scope} {now : Moment} {names : List String}
  {d d' opened filled : Disk} {path area : String} {A S : Place} {es : List Entitlement}
  {entries : List Zip.Entry} {signature : ByteArray}

theorem run_ok : x.run consumer scope now names d = (.ok path, d') ↔
    ∃ area opened es filled, openArea d x.settings.workDir names = (.ok area, opened) ∧
      x.source.entitlements consumer = .ok es ∧
      (x.plan consumer es now scope).run (join area treeName) opened = (.ok (), filled) ∧
      package consumer.uuid area (join area treeName) x.settings.entryNaming x.signer filled =
        (.ok path, d') := by
  constructor
  · intro ran
    unfold run at ran
    split at ran
    · cases ran
    rename_i area opened opens
    split at ran
    · cases ran
    rename_i es listed
    simp only at ran
    split at ran
    · cases ran
    rename_i filled fill
    exact ⟨area, opened, es, filled, opens, listed, fill, ran⟩
  · rintro ⟨area, opened, es, filled, opens, listed, fill, packed⟩
    simp only [run, opens, listed, fill, packed]

theorem run_finished (ran : x.run consumer scope now names d = (.ok path, d')) :
    ∃ area A S es opened filled entries signature,
      Finished x consumer scope now names d path d' area A S es opened filled entries signature := by
  obtain ⟨area, opened, es, filled, opens, listed, fill, ran⟩ := run_ok.mp ran
  obtain ⟨A, fresh⟩ := openArea_opens opens
  have leads := fresh.leads.kept
    (Plan.run_worksIn fresh.leads treeName_component (x.plan_sound consumer es now scope) fill).keeps
  obtain ⟨answer, W, S, entries, signature, packed⟩ := package_ok ran
  obtain rfl := packed.work.unique leads
  exact ⟨area, W, S, es, opened, filled, entries, signature, opens, fresh, listed, fill, packed,
    answer⟩

/- Under an id of one component the signed archive is in the work area. -/
theorem run_completed (single : '/' ∉ consumer.uuid.toList)
    (ran : x.run consumer scope now names d = (.ok path, d')) :
    ∃ area A es opened filled entries signature,
      Completed x consumer scope now names d path d' area A es opened filled entries signature := by
  obtain ⟨area, A, S, es, opened, filled, entries, signature, f⟩ := run_finished ran
  obtain rfl := f.packed.outer_beside single
  exact ⟨area, A, es, opened, filled, entries, signature, f⟩

theorem signedFileName_ne_treeName (uuid exportDir : String) :
    signedFileName uuid exportDir ≠ treeName := by
  intro same
  have dash : '-' ∈ (signedFileName uuid exportDir).toList := by simp [signedFileName]
  rw [same] at dash
  exact absurd dash (by decide)

theorem treeName_unzipped (stem : String) : treeName ≠ stem ++ ".zip" := by
  intro same
  have last := congrArg (fun s => s.toList.getLast?) same
  simp [treeName] at last

namespace Finished
variable (f : Finished x consumer scope now names d path d' area A S es opened filled entries
  signature)
include f

theorem worksIn : opened.WorksIn (A ++ [treeName]) filled :=
  Plan.run_worksIn f.fresh.leads treeName_component (x.plan_sound consumer es now scope) f.ran

theorem leads : filled.Leads area A := f.fresh.leads.kept f.worksIn.keeps

theorem tree_found : d'.locate (join area treeName) = .ok (A ++ [treeName]) := by
  obtain ⟨tree, found, _⟩ := innerEntries_ok f.packed.listed
  have begun := put_file_keeps ByteArray.empty f.packed.free
  obtain ⟨rfl, n, held, real⟩ := locate_below (f.leads.kept begun) treeName_component found
  refine f.packed.begun_keeps.locate found ⟨n, ?_, real⟩
  rwa [get?_put _ (by simp), if_neg (by simp [treeName, innerName]),
    ← f.packed.kept treeName_unzipped] at held

theorem entries_filled : entries = (filled.filesBelow (A ++ [treeName])).map (fun g =>
      ⟨entryName x.settings.entryNaming (join area treeName) g.1, g.2⟩) ∧
    (entries.map Zip.Entry.name).Nodup := by
  obtain ⟨tree, found, rfl, distinct⟩ := innerEntries_ok f.packed.listed
  have begun := put_file_keeps ByteArray.empty f.packed.free
  obtain ⟨rfl, _⟩ := locate_below (f.leads.kept begun) treeName_component found
  have files : (filled.put (A ++ [innerName]) (.file ByteArray.empty)).filesBelow (A ++ [treeName]) =
      filled.filesBelow (A ++ [treeName]) := filesBelow_congr fun t bytes _ => by
    rw [get?_put _ (by simp), if_neg (by simp [treeName, innerName])]
  exact ⟨by rw [files], distinct⟩

end Finished

namespace Completed
variable (c : Completed x consumer scope now names d path d' area A es opened filled entries signature)
include c

theorem tree_kept (t : Place) : d'.get? (A ++ treeName :: t) = filled.get? (A ++ treeName :: t) := by
  refine c.packed.others _ ?_ ?_
  · intro same
    have := List.append_cancel_left same
    simp [treeName, innerName] at this
  · intro same
    have := List.append_cancel_left same
    exact signedFileName_ne_treeName _ _ (List.cons.inj this).1.symm

theorem entries_eq : d'.locate (join area treeName) = .ok (A ++ [treeName]) ∧
    entries = (d'.filesBelow (A ++ [treeName])).map (fun f =>
      ⟨entryName x.settings.entryNaming (join area treeName) f.1, f.2⟩) ∧
    (entries.map Zip.Entry.name).Nodup := by
  obtain ⟨packed, distinct⟩ := c.entries_filled
  have files : filled.filesBelow (A ++ [treeName]) = d'.filesBelow (A ++ [treeName]) :=
    filesBelow_congr fun t bytes _ => by simp [c.tree_kept]
  exact ⟨c.tree_found, by rw [packed, files], distinct⟩

end Completed

end

/-! ### A small export -/

def sampleSource : Source where
  entitlements _ := .ok
    [{ id := "e1", quantity := 1, certificates := [.ofSerial 7 "CERT\n" "KEY\n"],
       pool := { id := "p1", quantity := 5, product := { id := "69", name := "OS" } } }]
  consumerTypes := .ok []
  distributorVersions := .ok []
  cdns := .ok []
  rules := .ok { version := "5.0", rules := "// rules\n" }
  productCertificate _ p := .ok (if p = "69" then some ⟨"69", "PEM\n"⟩ else none)
  contentAccessCertificate _ := .ok none

/-- Works in a directory that is yet to be made, takes the legacy rules from a file and signs with the
bytes themselves. -/
def sampleExporter : Exporter where
  settings := { Settings.standard with workDir := "/w", legacyRulesPath := some "/o" }
  source := sampleSource
  rules := .skipDerivedPools
  signer bytes := .ok bytes
  principal := "admin"

def sampleConsumer : Consumer where
  uuid := "c1"
  name := "consumer"
  ownerKey := "owner"
  type := { label := "system" }

def sampleMoment : Moment := ⟨⟨2024, 1, 1, by decide⟩, 0, 0, 0, 0, by decide⟩

def sampleDisk : Disk := Disk.put {} ["o"] (.file "// old\n".toUTF8)

theorem sampleDisk_grounded : sampleDisk.Grounded := by
  intro p name stands
  rw [sampleDisk, get?_put _ (by simp)] at stands
  split at stands
  · rename_i here
    obtain ⟨rfl, _⟩ := List.append_inj' (here.trans (List.nil_append _).symm) rfl
    rfl
  · simp [get?, SortedMap.get?, EmptyCollection.emptyCollection, SortedMap.empty] at stands

theorem sample_run : ∃ d', sampleExporter.run sampleConsumer (.full none none none) sampleMoment
    ["a"] sampleDisk = (.ok "/w/a/c1-export.zip", d') :=
  answered (by decide +kernel)

end SignedManifest.Exporter
