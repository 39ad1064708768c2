import SignedManifest.Proofs.Archive.Duplicates
import SignedManifest.Proofs.Export.Refilling

/-!
Exports under bare names. A full export whose steps all went through is refused for a repeated name
exactly if two of its files have one name in different directories, whichever records they are from.
-/
namespace SignedManifest
open SignedManifest.Path Disk

namespace Exporter

theorem beside_allowed {area s : String} (admits : Admits area [treeName] "meta.json")
    (c : IsComponent s) (clean : '\x00' ∉ s.toList) (short : s.utf8ByteSize ≤ 20) :
    checkPath (join area s) = .ok () := by
  obtain ⟨front, joined⟩ := join_front area
  have below : join (front ++ treeName) "meta.json" = front ++ "export/meta.json" := by
    simp [join, isAbsolute, treeName, String.append_assoc]
  have path : siblingOf (pathBelow area ([treeName] ++ ["meta.json"])) =
      front ++ "export/meta.json.tmp" := by
    rw [List.singleton_append, pathBelow, List.foldl_cons, List.foldl_cons, List.foldl_nil,
      joined treeName treeName_component, below, siblingOf, String.append_assoc]
    rfl
  have size : "export/meta.json.tmp".utf8ByteSize = 20 := by decide
  have allowed := admits.allowed
  rw [path] at allowed
  rw [joined s c]
  exact checkPath_front (by simp [c.filled]) clean (size ▸ short) allowed

section
variable {x : Exporter} {consumer : Consumer} {scope : Scope} {cdn web api : Option String}
  {now : Moment} {names : List String} {d d' opened filled : Disk} {workDir area name : String}
  {A : Place} {es : List Entitlement} {l : Lookups}

theorem plan_metadata (x : Exporter) (consumer : Consumer) (es : List Entitlement) (now : Moment)
    (scope : Scope) : ∃ content rest,
      x.plan consumer es now scope = .write ["meta.json"] content :: rest := by
  cases scope with
  | full => exact ⟨_, _, rfl⟩
  | certificates => exact ⟨_, _, rfl⟩

theorem plan_begins (leads : opened.Leads area A) (grounded : opened.Grounded)
    (ran : (x.plan consumer es now scope).run (join area treeName) opened = (.ok (), filled)) :
    Admits area [treeName] "meta.json" ∧ filled.isDirAt (A ++ [treeName]) = true := by
  obtain ⟨content, rest, spelled⟩ := plan_metadata x consumer es now scope
  have sound := x.plan_sound consumer es now scope
  rw [spelled, ← List.singleton_append] at ran sound
  obtain ⟨mid, first, later⟩ := Plan.run_append_ok.mp ran
  rw [Plan.run_singleton] at first
  have wrote : opened.writeExport (pathBelow area ([] ++ [treeName] ++ ["meta.json"])) content =
      (.ok (), mid) := first
  have plain : ∀ s ∈ [] ++ [treeName] ++ ["meta.json"], IsComponent s := by
    simp only [List.nil_append, List.singleton_append, List.forall_mem_cons, List.not_mem_nil,
      false_imp_iff, implies_true, and_true]
    exact ⟨treeName_component, by constructor <;> decide⟩
  have written : mid.get? (A ++ ([treeName] ++ ["meta.json"])) = some (.file content.bytes) :=
    (writeExport_exports leads plain wrote).written rfl
  have above : mid.isDirAt (A ++ [treeName]) = true := by
    refine grounded_preserved.writeExport grounded wrote _ "meta.json" ?_
    rw [List.append_assoc, written]
    exact Option.some_ne_none _
  have keeps := writeExport_keeps wrote
  have works := Plan.run_worksIn (leads.kept keeps) treeName_component (Plan.sound_append.mp sound).2 later
  exact ⟨writeExport_admits plain wrote, works.keeps.dirs _ above⟩

theorem Opened.packable (fresh : Opened d workDir names area A opened) (grounded : d.Grounded)
    (grounded' : opened.Grounded)
    (ran : (x.plan consumer es now scope).run (join area treeName) opened = (.ok (), filled)) :
    filled.Leads area A ∧ filled.locate (join area treeName) = .ok (A ++ [treeName]) ∧
      filled.isDirAt (A ++ [treeName]) = true ∧
      ∃ begun, filled.createFile (join area innerName) ByteArray.empty = .ok begun := by
  have works := Plan.run_worksIn fresh.leads treeName_component (x.plan_sound consumer es now scope) ran
  have leads := fresh.leads.kept works.keeps
  obtain ⟨admits, isDir⟩ := plan_begins fresh.leads grounded' ran
  have aims {s : String} (c : IsComponent s) (clean : '\x00' ∉ s.toList)
      (short : s.utf8ByteSize ≤ 20) : filled.Aims (join area s) A s :=
    aims_under leads c (beside_allowed admits c clean short) (short.trans (by decide))
  have openEnded {s : String} (c : IsComponent s) : (stepsOf (join area s)).2 = false := by
    rw [stepsOf_join area (isAbsolute_component c), stepsOf_component c]
  have free : filled.isDirAt (A ++ [innerName]) = false := by
    simp [isDirAt, fresh.nothing_beside grounded works (show innerName ≠ treeName by decide)]
  refine ⟨leads, ?_, isDir, _, createFile_of_aims ?_ (openEnded innerName_component) free _⟩
  · exact (aims treeName_component (by decide) (by decide)).locate (openEnded treeName_component)
      (stands_of_isDirAt isDir)
  · exact aims innerName_component (by decide) (by decide)

/-- Two files of a full export have one name in different directories. -/
def FullNamesakes (x : Exporter) (consumer : Consumer) (cdn web api : Option String) (now : Moment)
    (l : Lookups) : Prop :=
  ∃ above above' name text text', above ≠ above' ∧
    FullFile x consumer cdn web api now l (above ++ [name]) text ∧
    FullFile x consumer cdn web api now l (above' ++ [name]) text'

theorem Opened.full_namesakes (fresh : Opened d workDir names area A opened) (grounded : d.Grounded)
    (listed : x.source.entitlements consumer = .ok es)
    (ran : (x.plan consumer es now (.full cdn web api)).run (join area treeName) opened =
      (.ok (), filled)) :
    ∃ l, x.Finds consumer filled l ∧ l.entitlements = es ∧
      (filled.Namesakes (A ++ [treeName]) ↔ FullNamesakes x consumer cdn web api now l) := by
  obtain ⟨l, mid, finds, same, _, works, stays, files⟩ := fresh.full_tree grounded listed ran
  have legacy := legacyText_kept works.keeps stays finds.legacyRules
  have file (place : Place) : filled.HasFile (A ++ [treeName] ++ place) ↔
      ∃ text, FullFile x consumer cdn web api now l place text := by
    simp only [HasFile, List.append_assoc, List.singleton_append, files]
    exact ⟨fun ⟨_, text, file, _⟩ => ⟨text, file⟩, fun ⟨text, file⟩ => ⟨_, text, file, rfl⟩⟩
  refine ⟨l, { finds with legacyRules := legacy }, same, ?_⟩
  simp only [Namesakes, FullNamesakes, file, exists_and_left, exists_and_right]

theorem run_filled (opens : openArea d x.settings.workDir names = (.ok area, opened))
    (listed : x.source.entitlements consumer = .ok es)
    (ran : (x.plan consumer es now scope).run (join area treeName) opened = (.ok (), filled))
    (signer : Signer) : { x with signer := signer }.run consumer scope now names d =
      package consumer.uuid area (join area treeName) x.settings.entryNaming signer filled := by
  have ran' : ({ x with signer := signer }.plan consumer es now scope).run (join area treeName) opened =
    (.ok (), filled) := ran
  simp only [run, opens, listed, ran']

theorem tree_outside (leads : filled.Leads area A) (W : Place) (work : filled.Leads area W) :
    ¬ A ++ [treeName] <+: W := by
  rw [work.unique leads]
  intro inside
  have size := inside.length_le
  simp only [List.length_append, List.length_singleton] at size
  omega

end

/- Under relative names no tree is refused for a repeated name. Under bare ones a tree is refused exactly
if two of its files are namesakes, and for the name of the first file that has one before it, with nothing
signed and no signed archive begun. So a full export whose steps went through is refused for a repeated
name exactly if two of its files are namesakes. A signer may still answer with a repeated name of its own,
but only for a tree that has none. -/
theorem duplicates_exact :
    (∀ uuid workDir exportDir (d : Disk) tree, d.locate exportDir = .ok tree →
      d.isDirAt tree = true → (∀ W, d.Leads workDir W → ¬ tree <+: W) →
      ((∀ place, d.HasFile (tree ++ place) → ∀ s ∈ place, '/' ∉ s.toList) →
        ∀ signer name d', package uuid workDir exportDir .relative signer d =
          (.error (.duplicateEntry name), d') → ∃ bytes, signer bytes = .error (.duplicateEntry name)) ∧
      ((∃ name, d.FirstRepeat tree name) ↔ d.Namesakes tree) ∧
      (∀ opened name, d.createFile (join workDir innerName) ByteArray.empty = .ok opened →
        d.FirstRepeat tree name →
        (∀ signer, package uuid workDir exportDir .flat signer d =
          (.error (.duplicateEntry name), opened)) ∧
        ∀ S, opened.locate (join workDir (signedFileName uuid exportDir)) = .ok S →
          opened.get? S = d.get? S) ∧
      ∀ signer name d', package uuid workDir exportDir .flat signer d =
        (.error (.duplicateEntry name), d') → d.FirstRepeat tree name ∨
          ¬ d.Namesakes tree ∧ ∃ bytes, signer bytes = .error (.duplicateEntry name)) ∧
    ∀ (x : Exporter) consumer cdn web api now names (d : Disk) area opened es filled, d.Grounded →
      x.settings.entryNaming = .flat → openArea d x.settings.workDir names = (.ok area, opened) →
      x.source.entitlements consumer = .ok es →
      (x.plan consumer es now (.full cdn web api)).run (join area treeName) opened = (.ok (), filled) →
      ∃ A l, filled.Leads area A ∧ x.Finds consumer filled l ∧ l.entitlements = es ∧
        (filled.Namesakes (A ++ [treeName]) ↔ FullNamesakes x consumer cdn web api now l) ∧
        ((∃ name d', ∀ signer, { x with signer := signer }.run consumer (.full cdn web api) now names d =
          (.error (.duplicateEntry name), d')) ↔ FullNamesakes x consumer cdn web api now l) ∧
        ∀ name d', x.run consumer (.full cdn web api) now names d =
          (.error (.duplicateEntry name), d') → filled.FirstRepeat (A ++ [treeName]) name ∨
            ¬ FullNamesakes x consumer cdn web api now l ∧
              ∃ bytes, x.signer bytes = .error (.duplicateEntry name) := by
  constructor
  · intro uuid workDir exportDir d tree located isDir outside
    refine ⟨fun whole signer name d' failed => package_relative located isDir outside whole failed,
      exists_firstRepeat, fun opened name opens first => ?_,
      fun signer name d' failed => package_flat_duplicate located isDir outside failed⟩
    have repeated := innerEntries_flat located isDir outside opens first
    have refused : Refused d uuid workDir exportDir .flat .ok (.duplicateEntry name) opened :=
      .entries opens repeated
    exact ⟨fun signer => package_of_entries_error opens repeated, fun S found => (refused.kept found).1⟩
  · intro x consumer cdn web api now names d area opened es filled grounded flat opens listed ran
    obtain ⟨A, fresh⟩ := openArea_opens opens
    obtain ⟨l, finds, same, namesakes⟩ := fresh.full_namesakes grounded listed ran
    obtain ⟨leads, located, isDir, begun, begins⟩ :=
      fresh.packable grounded (Opened.grounded grounded opens) ran
    have outside := tree_outside leads
    have packs (signer : Signer) :
        { x with signer := signer }.run consumer (.full cdn web api) now names d =
          package consumer.uuid area (join area treeName) .flat signer filled :=
      flat ▸ run_filled opens listed ran signer
    refine ⟨A, l, leads, finds, same, namesakes, ⟨?_, fun shared => ?_⟩, fun name d' failed => ?_⟩
    · rintro ⟨name, d', refused⟩
      have failed := (packs .ok).symm.trans (refused .ok)
      rcases package_flat_duplicate located isDir outside failed with first | ⟨_, _, signed⟩
      · exact namesakes.mp first.namesakes
      · cases signed
    · obtain ⟨name, first⟩ := exists_firstRepeat.mpr (namesakes.mpr shared)
      have repeated := innerEntries_flat located isDir outside begins first
      exact ⟨name, begun, fun signer => (packs signer).trans (package_of_entries_error begins repeated)⟩
    · have failed' := (packs x.signer).symm.trans failed
      rw [← namesakes]
      exact package_flat_duplicate located isDir outside failed'

def twinTree : Disk :=
  ((({ : Disk }.put ["t"] .dir).put ["t", "a"] .dir).put ["t", "a", "x"] (.file ⟨#[1]⟩)).put
    ["t", "x"] (.file ⟨#[2]⟩)

def twinEntitlement : Entitlement where
  id := "69"
  quantity := 1
  pool := { id := "p1", quantity := 5, product := { id := "69", name := "OS" } }

def twinExporter : Exporter :=
  { sampleExporter with source := { sampleSource with entitlements := fun _ => .ok [twinEntitlement] } }

theorem duplicates_exact_twins :
    (∃ opened, ∀ signer, package "c1" "/" "/t" .flat signer twinTree =
      (.error (.duplicateEntry "x"), opened)) ∧
    (∀ name d', package "c1" "/" "/t" .relative .ok twinTree ≠ (.error (.duplicateEntry name), d')) ∧
    ∃ l, FullNamesakes twinExporter sampleConsumer none none none sampleMoment l ∧ ∃ name d', ∀ signer,
      { twinExporter with signer := signer }.run sampleConsumer (.full none none none) sampleMoment
        ["a"] sampleDisk = (.error (.duplicateEntry name), d') := by
  obtain ⟨trees, exports⟩ := duplicates_exact
  have located : twinTree.locate "/t" = .ok ["t"] := by decide +kernel
  have isDir : twinTree.isDirAt ["t"] = true := by decide +kernel
  have outside : ∀ W, twinTree.Leads "/" W → ¬ ["t"] <+: W := by
    intro W work
    have root : twinTree.Leads "/" [] := ⟨by decide +kernel, by decide +kernel⟩
    rw [work.unique root]
    decide
  have plain : ∀ f ∈ twinTree.filesBelow ["t"], ∀ s ∈ f.1, '/' ∉ s.toList := by decide +kernel
  have whole : ∀ place, twinTree.HasFile (["t"] ++ place) → ∀ s ∈ place, '/' ∉ s.toList :=
    fun place ⟨bytes, held⟩ s member =>
      plain (place, bytes) (mem_filesBelow.mpr ⟨List.ne_nil_of_mem member, held⟩) s member
  obtain ⟨relative, _, flat, back⟩ := trees "c1" "/" "/t" twinTree ["t"] located isDir outside
  obtain ⟨after, found⟩ : ∃ after, package "c1" "/" "/t" .flat .ok twinTree =
      (.error (.duplicateEntry "x"), after) := refused (by decide +kernel)
  obtain ⟨begun, begins, _⟩ := package_duplicate found
  have first : twinTree.FirstRepeat ["t"] "x" := (back .ok "x" after found).resolve_right nofun
  refine ⟨⟨begun, (flat begun "x" begins first).1⟩, fun name d' failed => ?_, ?_⟩
  · obtain ⟨_, signed⟩ := relative whole .ok name d' failed
    cases signed
  · obtain ⟨opened, opens⟩ : ∃ opened, openArea sampleDisk "/w" ["a"] = (.ok "/w/a", opened) :=
      answered (by decide +kernel)
    obtain ⟨filled, ran⟩ : ∃ filled, (twinExporter.plan sampleConsumer [twinEntitlement] sampleMoment
        (.full none none none)).run (join "/w/a" treeName) (openArea sampleDisk "/w" ["a"]).2 =
          (.ok (), filled) := answered (by decide +kernel)
    rw [opens] at ran
    obtain ⟨A, l, _, _, listed, _, refused, _⟩ := exports twinExporter sampleConsumer none none none
      sampleMoment ["a"] sampleDisk "/w/a" opened [twinEntitlement] filled sampleDisk_grounded rfl opens rfl
      ran
    have kept : twinExporter.rules twinEntitlement = true := by decide +kernel
    have accepted : IsLast Entitlement.id (l.entitlements.filter twinExporter.rules) twinEntitlement :=
      ⟨[], [], by simp [listed, kept], by simp⟩
    have reached : (productClosure l.entitlements).get? "69" = some twinEntitlement.pool.product :=
      listed ▸ rfl
    have file : FullFile twinExporter sampleConsumer none none none sampleMoment l
        (recordFile "entitlements" twinEntitlement.id "json") _ := .entitlement accepted
    have file' : FullFile twinExporter sampleConsumer none none none sampleMoment l
        (recordFile "products" twinEntitlement.pool.product.id "json") _ := .product reached
    have twins : FullNamesakes twinExporter sampleConsumer none none none sampleMoment l :=
      ⟨["entitlements"], ["products"], "69" ++ "." ++ "json", _, _, by decide, file, file'⟩
    exact ⟨l, twins, refused.mpr twins⟩

end Exporter
end SignedManifest
