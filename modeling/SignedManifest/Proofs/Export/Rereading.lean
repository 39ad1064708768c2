import SignedManifest.Proofs.Export.DirtyGate
import SignedManifest.Proofs.Record.Snapshots

/-!
Manifests of snapshots, read back. Every record that a full export over a snapshot writes as JSON comes
back from its file as it was; none of them is dirty, and none is too deep for the reader.
-/
namespace SignedManifest
open SignedManifest.Path Disk Json

namespace Exporter

def IsBlankText (text : String) : Prop := ∀ c ∈ text.toList, Text.isBlank c = true

/-- The URL that a manifest shows: the one that was asked for, else the configured one, where blank
ones are none. -/
inductive Resolves (asked configured : Option String) : Option String → Prop where
  | asked {url : String} (given : asked = some url) (filled : ¬ IsBlankText url) :
      Resolves asked configured (some url)
  | configured {url : String} (unasked : ∀ other, asked = some other → IsBlankText other)
      (given : configured = some url) (filled : ¬ IsBlankText url) : Resolves asked configured (some url)
  | neither (unasked : ∀ other, asked = some other → IsBlankText other)
      (unset : ∀ other, configured = some other → IsBlankText other) : Resolves asked configured none

theorem resolveUrl_resolves (asked configured : Option String) :
    Resolves asked configured (resolveUrl asked configured) := by
  have filled {url : String} (good : (!url.toList.all Text.isBlank) = true) : ¬ IsBlankText url := by
    simpa [IsBlankText] using good
  have blank {option : Option String}
      (dropped : (option.filter fun url => !url.toList.all Text.isBlank) = none) :
      ∀ url, option = some url → IsBlankText url := by
    rintro url rfl
    simpa [IsBlankText] using dropped
  have whole : resolveUrl asked configured = (asked.filter fun url => !url.toList.all Text.isBlank).or
      (configured.filter fun url => !url.toList.all Text.isBlank) := rfl
  rw [whole]
  cases first : asked.filter fun url => !url.toList.all Text.isBlank with
  | some url =>
    obtain ⟨given, good⟩ := Option.filter_eq_some_iff.mp first
    exact .asked given (filled good)
  | none =>
    rw [Option.none_or]
    cases second : configured.filter fun url => !url.toList.all Text.isBlank with
    | some url =>
      obtain ⟨given, good⟩ := Option.filter_eq_some_iff.mp second
      exact .configured (blank first) given (filled good)
    | none => exact .neither (blank first) (blank second)

structure Shows (x : Exporter) (consumer : Consumer) (web api : Option String) (r : ConsumerRecord) :
    Prop where
  uuid : r.uuid = consumer.uuid
  name : r.name = consumer.name
  username : r.username = consumer.username
  ownerKey : r.ownerKey = consumer.ownerKey
  type : r.type = consumer.type
  contentAccessMode : r.contentAccessMode = consumer.contentAccessMode
  urlWeb : Resolves web x.settings.prefixWebUrl r.urlWeb
  urlApi : Resolves api x.settings.prefixApiUrl r.urlApi

/-- A JSON file of an export over a snapshot, with the record that it decodes to. -/
inductive Rereads (x : Exporter) (s : Snapshot) (consumer : Consumer) (cdn web api : Option String)
    (now : Moment) : Place → ByteArray → Prop where
  | metadata {bytes : ByteArray} (read : Meta.layout.codec.decode bytes =
      .ok { version := x.settings.version, created := now, principalName := x.principal,
            webAppPrefix := none, cdnLabel := cdn }) :
      Rereads x s consumer cdn web api now ["meta.json"] bytes
  | consumer {r : ConsumerRecord} {bytes : ByteArray}
      (read : ConsumerRecord.layout.codec.decode bytes = .ok r) (shows : x.Shows consumer web api r) :
      Rereads x s consumer cdn web api now ["consumer.json"] bytes
  | identity {c : Certificate} {bytes : ByteArray} (has : consumer.idCert = some c)
      (read : Certificate.layout.codec.decode bytes = .ok c) : Rereads x s consumer cdn web api now
        (recordFile "upstream_consumer" (toString c.serial.id.toNat) "json") bytes
  | entitlement {e : Entitlement} {bytes : ByteArray} (member : e ∈ s.consumer.entitlements)
      (accepted : x.rules e = true) (read : Entitlement.layout.codec.decode bytes = .ok e) :
      Rereads x s consumer cdn web api now (recordFile "entitlements" e.id "json") bytes
  | product {e : Entitlement} {p : Product} {bytes : ByteArray}
      (member : e ∈ s.consumer.entitlements) (reached : p ∈ e.products)
      (read : Product.codec.decode bytes = .ok p) :
      Rereads x s consumer cdn web api now (recordFile "products" p.id "json") bytes
  | consumerType {t : ConsumerType} {bytes : ByteArray} (member : t ∈ s.consumerTypes)
      (read : ConsumerType.layout.codec.decode bytes = .ok t) :
      Rereads x s consumer cdn web api now (recordFile "consumer_types" t.label "json") bytes
  | distributorVersion {v : DistributorVersion} {bytes : ByteArray}
      (member : v ∈ s.distributorVersions)
      (read : DistributorVersion.layout.codec.decode bytes = .ok v) :
      Rereads x s consumer cdn web api now (recordFile "distributor_version" v.name "json") bytes
  | cdn {c : Cdn} {bytes : ByteArray} (member : c ∈ s.cdns)
      (read : Cdn.layout.codec.decode bytes = .ok c) : Rereads x s consumer cdn web api now
        (recordFile "content_delivery_network" c.label "json") bytes

theorem reread {α : Type} {c : Codec α} {a b : α} {n : Nat}
    (takes : c.read.Takes depthLimit (c.write a) b) (within : (c.write a).depth ≤ n)
    (room : n ≤ depthLimit) : c.decode (c.write a).sorted.text.toUTF8 = .ok b :=
  (takes.decodes (within.trans room)).2

section
variable {x : Exporter} {s : Snapshot} {consumer : Consumer} {cdn web api : Option String}
  {now : Moment} {names : List String} {d d' : Disk} {path : String} {text : ByteArray} {l : Lookups}

theorem Finds.inSnapshot {mid : Disk} (finds : x.Finds consumer mid l) (sourced : x.source = s.source) :
    consumer.uuid = s.consumer.uuid ∧ l.entitlements = s.consumer.entitlements ∧
      l.consumerTypes = s.consumerTypes ∧ l.distributorVersions = s.distributorVersions ∧
      l.cdns = s.cdns := by
  obtain ⟨entitlements, types, _, _, versions, cdns⟩ := finds
  rw [sourced] at entitlements types versions cdns
  unfold Snapshot.source at entitlements
  dsimp only at entitlements
  split at entitlements
  · rename_i known
    exact ⟨known, (Except.ok.inj entitlements).symm, (Except.ok.inj types).symm,
      (Except.ok.inj versions).symm, (Except.ok.inj cdns).symm⟩
  · cases entitlements

theorem json_ends {above : Place} {stem name : String} {x : Char}
    (last : (above ++ [stem ++ ".json"]).getLast? = some name) (ends : name.toList.getLast? = some x) :
    x = 'n' := by
  obtain rfl : stem ++ ".json" = name := by simpa using last
  simpa [eq_comm] using ends

/- The cases are the kinds of files; those that are no JSON have other names. -/
theorem FullFile.rereads {mid : Disk} {place above : Place} {stem content : String}
    (accepted : Snapshot.layout.codec.decode text = .ok s) (sourced : x.source = s.source)
    (finds : x.Finds consumer mid l) (tidy : ∀ e ∈ l.entitlements, e.dirty = false)
    (file : FullFile x consumer cdn web api now l place content)
    (spelled : above ++ [stem ++ ".json"] = place) :
    x.Rereads s consumer cdn web api now place content.toUTF8 := by
  obtain ⟨_, held, types, versions, cdns⟩ := finds.inSnapshot sourced
  have other {dir name : String} {c : Char} (here : above ++ [stem ++ ".json"] = [dir, name])
      (ends : name.toList.getLast? = some c) (different : c ≠ 'n') : False := by
    have last : (above ++ [stem ++ ".json"]).getLast? = some name := by
      rw [here]
      rfl
    exact different (json_ends last ends)
  cases file with
  | metadata => exact .metadata (reread (Meta.faithful _) (Meta.within _) (by decide))
  | consumer =>
    exact .consumer (reread (ConsumerRecord.faithful _) (ConsumerRecord.within _) (by decide))
      { uuid := rfl
        name := rfl
        username := rfl
        ownerKey := rfl
        type := rfl
        contentAccessMode := rfl
        urlWeb := resolveUrl_resolves _ _
        urlApi := resolveUrl_resolves _ _ }
  | identity has =>
    exact .identity has (reread (Certificate.faithful _) (Certificate.within _) (by decide))
  | @entitlement e last =>
    obtain ⟨member, passes⟩ := List.mem_filter.mp last.mem
    have fits := Snapshot.entitlement_fits accepted (held ▸ member)
    have settled : e.settled = e := by rw [Entitlement.settled, ← tidy e member]
    have read := reread (Entitlement.restores e) fits (Nat.le_refl _)
    rw [settled] at read
    exact .entitlement (held ▸ member) passes read
  | certificate => exact (other (c := 'm') spelled (by simp) (by decide)).elim
  | @product p reached =>
    rw [productClosure_get?] at reached
    obtain ⟨e, member, inside⟩ := List.mem_flatMap.mp (List.mem_of_find?_eq_some reached)
    have fits := Snapshot.product_fits accepted (held ▸ member) inside
    exact .product (held ▸ member) inside (reread (Product.faithful p) fits (Nat.le_refl _))
  | productCertificate => exact (other (c := 'm') spelled (by simp) (by decide)).elim
  | consumerType last =>
    exact .consumerType (types ▸ last.mem)
      (reread (ConsumerType.faithful _) (ConsumerType.within _) (by decide))
  | rules => exact (other (c := 's') spelled (by simp) (by decide)).elim
  | legacyRules => exact (other (c := 's') spelled (by simp) (by decide)).elim
  | distributorVersion last =>
    exact .distributorVersion (versions ▸ last.mem)
      (reread (DistributorVersion.faithful _) (DistributorVersion.within _) (by decide))
  | cdn last => exact .cdn (cdns ▸ last.mem) (reread (Cdn.faithful _) (Cdn.within _) (by decide))

/- Every JSON file of the tree decodes to a record of the snapshot that the file is named after, or to
   one of the two records that the export makes, and nothing of the record is lost. -/
theorem json_files_reread (grounded : d.Grounded)
    (accepted : Snapshot.layout.codec.decode text = .ok s) (sourced : x.source = s.source)
    (ran : x.run consumer (.full cdn web api) now names d = (.ok path, d')) :
    consumer.uuid = s.consumer.uuid ∧ ∃ area tree,
      (openArea d x.settings.workDir names).1 = .ok area ∧
      d'.locate (join area treeName) = .ok tree ∧
      ∀ above stem bytes, (above ++ [stem ++ ".json"], bytes) ∈ d'.filesBelow tree →
        x.Rereads s consumer cdn web api now (above ++ [stem ++ ".json"]) bytes := by
  obtain ⟨area, A, S, es, opened, filled, entries, signature, f⟩ := run_finished ran
  obtain ⟨l, mid, finds, rfl, files⟩ := f.full_files grounded
  refine ⟨(finds.inSnapshot sourced).1, area, A ++ [treeName], by rw [f.opens], f.tree_found,
    fun above stem bytes member => ?_⟩
  have unzipped (other : String) : stem ++ ".json" ≠ other ++ ".zip" := by
    intro same
    have ends := congrArg (fun s => s.toList.getLast?) same
    simp at ends
  obtain ⟨_, held⟩ := mem_filesBelow.mp member
  rw [List.append_assoc, List.singleton_append] at held
  obtain ⟨content, file, rfl⟩ := (files above _ bytes unzipped).mp held
  exact file.rereads accepted sourced finds (tidy_of_run f.ran) rfl

end

def sampleSnapshotText : String :=
  "\x7b\"consumer\":\x7b\"uuid\":\"c1\",\"name\":\"n\",\"ownerKey\":\"o\",\"type\":\x7b\"label\":\"t\"\x7d," ++
  "\"entitlements\":[\x7b\"id\":\"e1\",\"quantity\":1,\"pool\":\x7b\"id\":\"p1\",\"quantity\":5," ++
  "\"product\":\x7b\"id\":\"x\",\"name\":\"X\"\x7d\x7d\x7d]\x7d\x7d"

theorem json_files_reread_sample : sampleDisk.Grounded ∧ ∃ s, ∃ x : Exporter, ∃ d',
    Snapshot.layout.codec.decode sampleSnapshotText.toUTF8 = .ok s ∧ x.source = s.source ∧
    x.run s.consumer (.full none none none) sampleMoment ["a"] sampleDisk =
      (.ok "/w/a/c1-export.zip", d') ∧ ∃ area tree, (openArea sampleDisk "/w" ["a"]).1 = .ok area ∧
      d'.locate (join area treeName) = .ok tree ∧
      ∀ above stem bytes, (above ++ [stem ++ ".json"], bytes) ∈ d'.filesBelow tree →
        x.Rereads s s.consumer none none none sampleMoment (above ++ [stem ++ ".json"]) bytes := by
  have answer : ((Snapshot.layout.codec.decode sampleSnapshotText.toUTF8).toOption.bind fun s =>
      (({ sampleExporter with source := s.source } : Exporter).run s.consumer (.full none none none)
        sampleMoment ["a"] sampleDisk).1.toOption) = some "/w/a/c1-export.zip" := by decide +kernel
  obtain ⟨s, read, went⟩ := Option.bind_eq_some_iff.mp answer
  obtain ⟨d', ran⟩ := answered went
  have accepted := toOption_ok.mp read
  obtain ⟨_, reread⟩ := json_files_reread sampleDisk_grounded accepted rfl ran
  exact ⟨sampleDisk_grounded, s, _, d', accepted, rfl, ran, reread⟩

end Exporter
end SignedManifest
