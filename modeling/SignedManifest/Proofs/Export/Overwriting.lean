import SignedManifest.Proofs.Export.Trees

/-!
Records that share a file name. The last of them has the file, so a full export that succeeds has kept
every record of a kind exactly if those that share a name are alike; nothing checks that they are.
-/
namespace SignedManifest
open SignedManifest.Path Disk

/-! ### Records of one kind -/

section
variable {α : Type}

/-- Every record of a list is in the file that is named after it. -/
def Disk.Keeping (d : Disk) (tree : Place) (dir extension : String) (stem : α → String)
    (content : α → FileContent) (l : List α) : Prop :=
  ∀ a ∈ l, d.get? (tree ++ recordFile dir (stem a) extension) = some (.file (content a).bytes)

/-- Records of a list that share a name share their content. -/
def AlikeByName (stem : α → String) (content : α → FileContent) (l : List α) : Prop :=
  ∀ a ∈ l, ∀ b ∈ l, stem a = stem b → (content a).bytes = (content b).bytes

theorem keeping_iff_alike {d : Disk} {tree : Place} {dir extension : String} {stem : α → String}
    {content : α → FileContent} {l : List α} (last : ∀ a, IsLast stem l a →
      d.get? (tree ++ recordFile dir (stem a) extension) = some (.file (content a).bytes)) :
    d.Keeping tree dir extension stem content l ↔ AlikeByName stem content l := by
  constructor
  · intro kept a here b there same
    have first := kept a here
    rw [same, kept b there] at first
    exact (Node.file.inj (Option.some.inj first)).symm
  · intro alike a here
    obtain ⟨b, isLast, same⟩ : ∃ b, IsLast stem l b ∧ stem b = stem a := exists_isLast here
    rw [← same, last b isLast, alike b isLast.mem a here same]

end

/-! ### Full exports -/

namespace Exporter

section
variable {x : Exporter} {consumer : Consumer} {cdn web api : Option String} {now : Moment}
  {names : List String} {d d' : Disk} {path : String}

theorem Finished.held {area : String} {A S : Place} {es : List Entitlement} {opened filled : Disk}
    {entries : List Zip.Entry} {signature : ByteArray}
    (f : Finished x consumer (.full cdn web api) now names d path d' area A S es opened filled entries
      signature) (grounded : d.Grounded) :
    ∃ l mid, x.Finds consumer mid l ∧ l.entitlements = es ∧
      ∀ place (content : FileContent) text, content.bytes = text.toUTF8 →
        FullFile x consumer cdn web api now l place text →
          d'.get? (A ++ [treeName] ++ place) = some (.file content.bytes) := by
  obtain ⟨l, mid, finds, same, file⟩ := f.full_file grounded
  refine ⟨l, mid, finds, same, fun place content text bytes known => ?_⟩
  rw [bytes, List.append_assoc, List.singleton_append, file place text known]

/- A full export that succeeds has kept all records of a kind unless two of them have a name in common
   and differ. -/
theorem records_kept_iff_alike (grounded : d.Grounded)
    (ran : x.run consumer (.full cdn web api) now names d = (.ok path, d')) :
    ∃ area tree es types versions cdns, (openArea d x.settings.workDir names).1 = .ok area ∧
      d'.locate (join area treeName) = .ok tree ∧ x.source.entitlements consumer = .ok es ∧
      x.source.consumerTypes = .ok types ∧ x.source.distributorVersions = .ok versions ∧
      x.source.cdns = .ok cdns ∧
      (d'.Keeping tree "entitlements" "json" Entitlement.id
          (fun e => .ofRecord (Entitlement.layout.json e)) (es.filter x.rules) ↔
        AlikeByName Entitlement.id (fun e => .ofRecord (Entitlement.layout.json e))
          (es.filter x.rules)) ∧
      (d'.Keeping tree "entitlement_certificates" "pem" (fun c => toString c.serial.id.toNat)
          (fun c => .pemPair c.cert c.key) ((es.filter x.rules).flatMap Entitlement.certificates) ↔
        AlikeByName (fun c => toString c.serial.id.toNat) (fun c => .pemPair c.cert c.key)
          ((es.filter x.rules).flatMap Entitlement.certificates)) ∧
      (d'.Keeping tree "consumer_types" "json" ConsumerType.label
          (fun t => .ofRecord (ConsumerType.layout.json t)) types ↔
        AlikeByName ConsumerType.label (fun t => .ofRecord (ConsumerType.layout.json t)) types) ∧
      (d'.Keeping tree "distributor_version" "json" DistributorVersion.name
          (fun v => .ofRecord (DistributorVersion.layout.json v)) versions ↔
        AlikeByName DistributorVersion.name (fun v => .ofRecord (DistributorVersion.layout.json v))
          versions) ∧
      (d'.Keeping tree "content_delivery_network" "json" Cdn.label
          (fun c => .ofRecord (Cdn.layout.json c)) cdns ↔
        AlikeByName Cdn.label (fun c => .ofRecord (Cdn.layout.json c)) cdns) := by
  obtain ⟨area, A, S, es, opened, filled, entries, signature, f⟩ := run_finished ran
  obtain ⟨l, mid, finds, rfl, held⟩ := f.held grounded
  refine ⟨area, A ++ [treeName], l.entitlements, l.consumerTypes, l.distributorVersions, l.cdns,
    by rw [f.opens], f.tree_found, f.listed, finds.consumerTypes, finds.distributorVersions, finds.cdns,
    ?_, ?_, ?_, ?_, ?_⟩
  · exact keeping_iff_alike fun e last => held _ _ _ (json_bytes _) (.entitlement last)
  · exact keeping_iff_alike fun c last =>
      held _ _ _ (pair_bytes _ _) (.certificate (Roster.isLast_serial.mp last))
  · exact keeping_iff_alike fun t last => held _ _ _ (json_bytes _) (.consumerType last)
  · exact keeping_iff_alike fun v last => held _ _ _ (json_bytes _) (.distributorVersion last)
  · exact keeping_iff_alike fun c last => held _ _ _ (json_bytes _) (.cdn last)

end

def namesake (quantity : UInt32) : Entitlement where
  id := "e1"
  quantity
  pool := { id := "p1", quantity := 5, product := { id := "69", name := "OS" } }

def exporterOf (es : List Entitlement) : Exporter :=
  { sampleExporter with source := { sampleSource with entitlements := fun _ => .ok es } }

def twins : List Entitlement := [namesake 1, { namesake 2 with id := "e2" }, namesake 1]

theorem records_kept_iff_alike_sample : sampleDisk.Grounded ∧ ∃ d',
    (exporterOf twins).run sampleConsumer (.full none none none) sampleMoment ["a"] sampleDisk =
      (.ok "/w/a/c1-export.zip", d') ∧ ∃ area tree es, (openArea sampleDisk "/w" ["a"]).1 = .ok area ∧
      d'.locate (join area treeName) = .ok tree ∧
      (exporterOf twins).source.entitlements sampleConsumer = .ok es ∧ es = twins ∧
      d'.Keeping tree "entitlements" "json" Entitlement.id
        (fun e => .ofRecord (Entitlement.layout.json e)) (es.filter (exporterOf twins).rules) := by
  obtain ⟨d', ran⟩ : ∃ d', (exporterOf twins).run sampleConsumer (.full none none none) sampleMoment
      ["a"] sampleDisk = (.ok "/w/a/c1-export.zip", d') := answered (by decide +kernel)
  obtain ⟨area, tree, es, _, _, _, opens, found, listed, _, _, _, kept, _⟩ :=
    records_kept_iff_alike sampleDisk_grounded ran
  refine ⟨sampleDisk_grounded, d', ran, area, tree, es, opens, found, listed,
    (Except.ok.inj listed).symm, kept.mpr ?_⟩
  cases listed
  intro a here b there same
  have first := List.mem_of_mem_filter here
  have second := List.mem_of_mem_filter there
  simp only [twins, List.mem_cons, List.not_mem_nil, or_false] at first second
  rcases first with rfl | rfl | rfl <;> rcases second with rfl | rfl | rfl <;>
    first | exact absurd same (by decide) | rfl

def namesakes : List Entitlement := [namesake 1, namesake 2]

def namesakeExporter : Exporter := exporterOf namesakes

/- Of two accepted entitlements with one id only the second one is kept, and the export succeeds. -/
theorem namesake_overwritten : ∃ d',
    namesakeExporter.run sampleConsumer (.full none none none) sampleMoment ["a"] sampleDisk =
      (.ok "/w/a/c1-export.zip", d') ∧
    ∃ tree, d'.locate "/w/a/export" = .ok tree ∧
      ¬ d'.Keeping tree "entitlements" "json" Entitlement.id
        (fun e => .ofRecord (Entitlement.layout.json e))
        (namesakes.filter namesakeExporter.rules) := by
  obtain ⟨d', ran⟩ : ∃ d', namesakeExporter.run sampleConsumer (.full none none none) sampleMoment
      ["a"] sampleDisk = (.ok "/w/a/c1-export.zip", d') := answered (by decide +kernel)
  obtain ⟨area, A, _, _, _, _, _, _, f⟩ := run_finished ran
  obtain ⟨l, _, finds, rfl, held⟩ := f.held sampleDisk_grounded
  obtain ⟨_, opens⟩ : ∃ opened, openArea sampleDisk "/w" ["a"] = (.ok "/w/a", opened) :=
    answered (by decide +kernel)
  cases opens.symm.trans f.opens
  refine ⟨d', ran, A ++ [treeName], f.tree_found, fun kept => ?_⟩
  have listed : namesakes = l.entitlements := Except.ok.inj finds.entitlements
  have accepted : namesakes.filter namesakeExporter.rules = namesakes := rfl
  have alike := (keeping_iff_alike fun e last =>
    held _ _ _ (json_bytes _) (.entitlement last)).mp (listed ▸ kept)
  rw [← listed, accepted] at alike
  have clash := alike (namesake 1) (by simp [namesakes]) (namesake 2) (by simp [namesakes]) rfl
  exact absurd clash (by decide +kernel)

end Exporter

end SignedManifest
