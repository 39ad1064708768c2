import SignedManifest.Proofs.Export.Failures

/-!
Export trees as a whole. Besides its files a tree holds the directories above them and nothing else,
and the archives that are packed from it may stand in it, but never in place of one of its files.
-/
namespace SignedManifest
open SignedManifest.Path

namespace Disk
variable {d d' : Disk} {base path top last : String} {B names p : Place} {bytes : ByteArray}

/-! ### Directories above files -/

theorem Grounded.dir_above {more : Place} (grounded : d.Grounded) (below : more ≠ [])
    (stands : d.get? (p ++ more) ≠ none) : d.get? p = some .dir := by
  cases more with
  | nil => exact absurd rfl below
  | cons s r =>
    refine isDirAt_iff.mp (grounded p s fun free => stands ?_)
    rw [List.append_cons]
    exact grounded.nothing_below free r

theorem Grounded.remove (grounded : d.Grounded) (free : d.isDirAt p = false) :
    (d.remove p).Grounded := by
  intro q s stands
  rw [get?_remove d (ne_root free)] at stands
  split at stands
  · exact absurd rfl stands
  · exact (remove_keeps free).dirs q (grounded q s stands)

theorem createFile_grounded (grounded : d.Grounded) (made : d.createFile path bytes = .ok d') :
    d'.Grounded := by
  obtain ⟨dir, name, aims, _, free, rfl⟩ := createFile_ok made
  exact grounded.put aims.isDir (put_file_keeps bytes free)

theorem renameFile_grounded {source : String} (grounded : d.Grounded)
    (moved : d.renameFile source path = .ok d') : d'.Grounded := by
  obtain ⟨old, held, dir, name, _, there, aims, _, free, rfl⟩ := renameFile_ok moved
  have gone : d.isDirAt old = false := by simp [isDirAt, there]
  exact (grounded.remove gone).put ((remove_keeps gone).dirs _ aims.isDir)
    (put_file_keeps held (remove_free gone free))

structure Preserved (P : Disk → Prop) : Prop where
  make : ∀ {d d' : Disk} {path : String}, P d → d.makeDir path = .ok d' → P d'
  create : ∀ {d d' : Disk} {path : String} {bytes : ByteArray}, P d →
    d.createFile path bytes = .ok d' → P d'
  move : ∀ {d d' : Disk} {source path : String}, P d → d.renameFile source path = .ok d' → P d'

theorem grounded_preserved : Preserved Grounded :=
  ⟨makeDir_grounded, createFile_grounded, renameFile_grounded⟩

theorem Preserved.writeThrough {P : Disk → Prop} (preserved : Preserved P)
    {r : Except ExportError Unit} (holds : P d) (wrote : d.writeThrough path bytes = (r, d')) :
    P d' := by
  rw [Disk.writeThrough_eq] at wrote
  split at wrote
  · cases wrote
    exact holds
  · rename_i created
    have next := preserved.create holds created
    split at wrote
    · cases wrote
      exact next
    · rename_i moved
      cases wrote
      exact preserved.move next moved

theorem Preserved.writeExport {P : Disk → Prop} (preserved : Preserved P)
    {r : Except ExportError Unit} {content : FileContent} (holds : P d)
    (wrote : d.writeExport path content = (r, d')) : P d' := by
  rw [Disk.writeExport_eq] at wrote
  split at wrote
  · exact preserved.writeThrough holds wrote
  · rename_i dir found
    have made : P (d.makeDirAll dir).2 :=
      makeDirs_preserves (fun _ _ _ holds made => preserved.make holds made) _ holds
    split at wrote
    · rename_i same
      cases wrote
      simpa only [same] using made
    · rename_i same
      rw [same] at made
      exact preserved.writeThrough made wrote

/-! ### Nothing but files and the directories above them -/

/-- Below a place stand files and the directories above them, and nothing else. -/
def Timber (d : Disk) (T : Place) : Prop :=
  ∀ t, d.get? (T ++ t) ≠ some .link ∧
    (d.get? (T ++ t) = some .dir ↔
      ∃ more bytes, more ≠ [] ∧ d.get? (T ++ (t ++ more)) = some (.file bytes))

theorem Timber.get?_eq {e : Disk} {T U t : Place} (timber : d.Timber T) (timber' : e.Timber U)
    (files : ∀ more bytes, d.get? (T ++ (t ++ more)) = some (.file bytes) ↔
      e.get? (U ++ (t ++ more)) = some (.file bytes)) : d.get? (T ++ t) = e.get? (U ++ t) := by
  obtain ⟨unlinked, dir⟩ := timber t
  obtain ⟨unlinked', dir'⟩ := timber' t
  refine Option.ext fun n => ?_
  cases n with
  | file bytes => simpa using files [] bytes
  | dir => simp only [dir, dir', files]
  | link => exact iff_of_false unlinked unlinked'

def Bare (d : Disk) (T : Place) (ws : List (Place × ByteArray)) : Prop :=
  ∀ t n, d.get? (T ++ t) = some n →
    (∃ bytes, n = .file bytes) ∨ n = .dir ∧ ∃ w ∈ ws, ∃ more, more ≠ [] ∧ w.1 = t ++ more

theorem Bare.write {ws : List (Place × ByteArray)} {succeeds : Prop} (bare : d.Bare (B ++ [top]) ws)
    (success : succeeds) (exports : d.Exports B (top :: names) last bytes succeeds d') :
    d'.Bare (B ++ [top]) (ws ++ [(names ++ [last], bytes)]) := by
  intro t n stands
  have written := exports.written success
  have moved := exports.moved success
  have others := exports.others (B ++ [top] ++ t)
  simp only [List.cons_append, List.append_assoc, List.nil_append, ne_eq,
    List.append_cancel_left_eq, List.cons.injEq, true_and] at written moved others stands
  by_cases here : t = names ++ [last]
  · rw [here, written] at stands
    exact .inl ⟨bytes, (Option.some.inj stands).symm⟩
  by_cases sibling : t = names ++ [last ++ ".tmp"]
  · rw [sibling, moved] at stands
    cases stands
  rcases others here sibling with same | ⟨_, dir, s, _, first, spelled⟩
  · rw [same] at stands
    refine (bare t n (by simpa using stands)).imp_right fun ⟨isDir, w, member, above⟩ => ?_
    exact ⟨isDir, w, List.mem_append_left _ member, above⟩
  · subst spelled
    rw [dir] at stands
    obtain ⟨more, whole⟩ := (List.cons_prefix_cons.mp first).2
    refine .inr ⟨(Option.some.inj stands).symm, (names ++ [last], bytes),
      List.mem_append_right _ (List.mem_singleton_self _), more, ?_, whole.symm⟩
    rintro rfl
    exact here (by simpa using whole)

/- A directory is above what was written last in the place of what it was made for. -/
theorem Bare.timber {T : Place} {ws : List (Place × ByteArray)} (bare : d.Bare T ws)
    (grounded : d.Grounded) (tree : d.Tree T ws) : d.Timber T := by
  intro t
  refine ⟨fun link => ?_, fun dir => ?_, fun ⟨more, bytes, below, file⟩ => ?_⟩
  · obtain ⟨_, file⟩ | ⟨dir, _⟩ := bare t _ link
    · cases file
    · cases dir
  · obtain ⟨_, file⟩ | ⟨_, w, member, more, below, above⟩ := bare t _ dir
    · cases file
    obtain ⟨⟨place, bytes⟩, last, same⟩ : ∃ v, IsLast Prod.fst ws v ∧ v.1 = w.1 :=
      exists_isLast member
    obtain rfl : place = t ++ more := same.trans above
    exact ⟨more, bytes, below, (tree _ bytes).mpr last⟩
  · refine grounded.dir_above below ?_
    rw [List.append_assoc, file]
    simp

end Disk

theorem Plan.run_preserved {P : Disk → Prop} (preserved : Disk.Preserved P) {d d' : Disk} {root : String}
    {plan : Plan} {r : Except ExportError Unit} (holds : P d) (ran : plan.run root d = (r, d')) :
    P d' := by
  have step : ∀ a : Action, ∀ r d d', P d → a.run root d = (r, d') → P d' := by
    intro a r d d' holds ran
    rcases Action.run_cases ran with rfl | ⟨names, content, _, wrote⟩
    · exact holds
    · exact preserved.writeExport holds wrote
  induction plan generalizing d with
  | nil =>
    cases ran
    exact holds
  | cons a rest ih =>
    unfold run at ran
    split at ran
    · rename_i done
      exact ih (step a _ _ _ holds done) ran
    · exact step a _ _ _ holds ran

theorem Plan.run_grounded {d d' : Disk} {root : String} {plan : Plan} {r : Except ExportError Unit}
    (grounded : d.Grounded) (ran : plan.run root d = (r, d')) : d'.Grounded :=
  Plan.run_preserved Disk.grounded_preserved grounded ran

namespace Exporter
open Disk

variable {x : Exporter} {consumer : Consumer} {scope : Scope} {now : Moment} {names : List String}
  {d d' opened filled : Disk} {path area : String} {A S : Place} {es : List Entitlement}
  {entries : List Zip.Entry} {signature : ByteArray}

theorem Opened.grounded {workDir : String} (grounded : d.Grounded)
    (opens : openArea d workDir names = (.ok area, opened)) : opened.Grounded := by
  obtain ⟨mid, name, _, above, _, _, made⟩ := openArea_ok opens
  exact makeDir_grounded (above grounded) made

theorem Opened.timber {workDir : String} {plan : Plan} (fresh : Opened d workDir names area A opened)
    (grounded : d.Grounded) (grounded' : opened.Grounded) (sound : plan.Sound)
    (ran : plan.run (join area treeName) opened = (.ok (), filled)) :
    filled.Timber (A ++ [treeName]) := by
  have leads := fresh.leads
  have bare : filled.Bare (A ++ [treeName]) ([] ++ _) :=
    Plan.run_preserves (P := fun d ws => d.Bare (A ++ [treeName]) ws)
      (fun _ _ _ _ _ _ _ bare _ success exports => bare.write success exports) leads
      treeName_component sound ran fun t n stands => by
        rw [List.append_assoc, List.singleton_append,
          fresh.empty grounded (treeName :: t) (by simp)] at stands
        cases stands
  obtain ⟨tree, _⟩ := Plan.run_effects leads treeName_component sound ran
    (fresh.tree_empty grounded) (by simp)
  exact bare.timber (Plan.run_grounded grounded' ran) tree

theorem Finished.timber (f : Finished x consumer scope now names d path d' area A S es opened filled
      entries signature) (grounded : d.Grounded) : filled.Timber (A ++ [treeName]) :=
  f.fresh.timber grounded (Opened.grounded grounded f.opens) (x.plan_sound consumer es now scope) f.ran

theorem Completed.timber_kept (c : Completed x consumer scope now names d path d' area A es opened filled
      entries signature) (grounded : d.Grounded) : d'.Timber (A ++ [treeName]) := by
  intro t
  simpa [c.tree_kept] using c.timber grounded t

/-! ### The files of full exports, whatever the consumer's id is -/

section
variable {cdn web api : Option String} {l : Lookups}

theorem FullFile.isTreePlace {place : Place} {text : String}
    (file : FullFile x consumer cdn web api now l place text) : IsTreePlace place := by
  have inside {dir extension : String} (stem : String) (known : IsExtension extension)
      (apart : IsFolder dir) :
      IsTreePlace (recordFile dir stem extension) := by
    obtain ⟨c, last, other⟩ := known.ends stem
    exact .inside apart last other
  cases file with
  | metadata => exact .top (.inl rfl)
  | consumer => exact .top (.inr rfl)
  | identity => exact inside _ .json (by decide)
  | entitlement => exact inside _ .json (by decide)
  | certificate => exact inside _ .pem (by decide)
  | product => exact inside _ .json (by decide)
  | productCertificate => exact inside _ .pem (by decide)
  | consumerType => exact inside _ .json (by decide)
  | rules => exact .script (by decide) (by decide)
  | legacyRules => exact .script (by decide) (by decide)
  | distributorVersion => exact inside _ .json (by decide)
  | cdn => exact inside _ .json (by decide)

/- The signed archive may be in the tree, but under a name that no file of the export has. -/
theorem Finished.full_files (f : Finished x consumer (.full cdn web api) now names d path d' area A S es
      opened filled entries signature) (grounded : d.Grounded) :
    ∃ l mid, x.Finds consumer mid l ∧ l.entitlements = es ∧ ∀ above s bytes,
      (∀ stem, s ≠ stem ++ ".zip") →
        (d'.get? (A ++ treeName :: (above ++ [s])) = some (.file bytes) ↔
          ∃ text, FullFile x consumer cdn web api now l (above ++ [s]) text ∧
            bytes = text.toUTF8) := by
  obtain ⟨l, mid, finds, same, _, _, _, files⟩ := f.fresh.full_tree grounded f.listed f.ran
  refine ⟨l, mid, finds, same, fun above s bytes unzipped => ?_⟩
  rw [← files, ← List.cons_append, ← List.append_assoc, f.packed.kept unzipped]

theorem Finished.full_file (f : Finished x consumer (.full cdn web api) now names d path d' area A S es
      opened filled entries signature) (grounded : d.Grounded) :
    ∃ l mid, x.Finds consumer mid l ∧ l.entitlements = es ∧ ∀ place text,
      FullFile x consumer cdn web api now l place text →
        d'.get? (A ++ treeName :: place) = some (.file text.toUTF8) := by
  obtain ⟨l, mid, finds, same, files⟩ := f.full_files grounded
  refine ⟨l, mid, finds, same, fun place text file => ?_⟩
  have known := file.isTreePlace
  obtain ⟨above, s, rfl⟩ := (List.eq_nil_or_concat' place).resolve_left (by rintro rfl; cases known)
  exact (files above s _ fun stem => (known.final stem).2).mpr ⟨text, file, rfl⟩

end

end Exporter
end SignedManifest
