import Mathlib.Data.List.Induction
import SignedManifest.Export.Exporter
import SignedManifest.Proofs.Export.Writing

/-!
Work areas. An area is a directory that was not there before, so nothing is in it; making it adds
directories where nothing stood and does nothing else.
-/
namespace SignedManifest

namespace Disk

/-- The place above every entry is a directory. -/
def Grounded (d : Disk) : Prop := ∀ p name, d.get? (p ++ [name]) ≠ none → d.isDirAt p = true

variable {d d' : Disk} {path : String}

theorem Grounded.put {p : Place} {s : String} {n : Node} (grounded : d.Grounded)
    (dir : d.isDirAt p = true) (keeps : d.Keeps (d.put (p ++ [s]) n)) :
    (d.put (p ++ [s]) n).Grounded := by
  intro q t stands
  rw [get?_put d (by simp)] at stands
  split at stands
  · rename_i here
    obtain ⟨rfl, _⟩ := List.append_inj' here rfl
    exact keeps.dirs _ dir
  · exact keeps.dirs q (grounded q t stands)

theorem makeDir_grounded (grounded : d.Grounded) (made : d.makeDir path = .ok d') : d'.Grounded := by
  obtain ⟨dir, name, aims, _, rfl⟩ := makeDir_ok made
  exact grounded.put aims.isDir (put_dir_keeps d (by simp))

theorem makeDirs_preserves {P : Disk → Prop}
    (step : ∀ d d' path, P d → d.makeDir path = .ok d' → P d') (n : Nat) (holds : P d) :
    P (d.makeDirs path n).2 := by
  induction n generalizing d path with
  | zero => exact holds
  | succ n ih =>
    simp only [makeDirs] at ih ⊢
    rw [FileSystem.makeDirs]
    split
    · exact holds
    split
    · rename_i done
      exact step _ _ _ holds done
    · split
      · exact holds
      · rename_i above _
        have upper : P (FileSystem.makeDirs d above n).2 := ih holds
        split
        · rename_i same
          simpa only [same] using upper
        · rename_i same
          rw [same] at upper
          split
          · rename_i done
            exact step _ _ _ upper done
          · split <;> exact upper
    · split <;> exact holds

theorem makeDirAll_grounded (grounded : d.Grounded) (path : String) :
    (d.makeDirAll path).2.Grounded :=
  makeDirs_preserves (fun _ _ _ holds made => makeDir_grounded holds made) _ grounded

theorem Grounded.nothing_below (grounded : d.Grounded) {p : Place} (free : d.get? p = none)
    (names : Place) : d.get? (p ++ names) = none := by
  induction names using List.reverseRecOn with
  | nil => simpa using free
  | append_singleton names s ih =>
    by_contra stands
    rw [← List.append_assoc] at stands
    have dir := grounded _ _ stands
    rw [isDirAt_iff, ih] at dir
    cases dir

end Disk

namespace Exporter
open SignedManifest.Path Disk

variable {d d' : Disk} {workDir area : String} {names : List String}

theorem makeArea_ok (made : makeArea d workDir names = .ok (area, d')) :
    ∃ name ∈ names, area = Path.join workDir name ∧ d.makeDir area = .ok d' := by
  induction names with
  | nil => cases made
  | cons name rest ih =>
    unfold makeArea at made
    dsimp only at made
    split at made
    · rename_i done
      cases made
      exact ⟨name, by simp, rfl, done⟩
    · obtain ⟨other, member, spelled, done⟩ := ih made
      exact ⟨other, List.mem_cons_of_mem _ member, spelled, done⟩
    · cases made

def absoluteDir (d : Disk) (workDir : String) : String :=
  if Path.isAbsolute workDir then workDir
  else Path.join ("/" ++ "/".intercalate d.current) workDir

theorem openArea_ok (opened : openArea d workDir names = (.ok area, d')) :
    ∃ mid name, d.MakesDirs workDir mid ∧ (d.Grounded → mid.Grounded) ∧ name ∈ names ∧
      area = Path.join (absoluteDir d workDir) name ∧ mid.makeDir area = .ok d' := by
  simp only [openArea] at opened
  split at opened
  · cases opened
  rename_i mid same
  have makes := makeDirAll_makes d workDir
  have grounded := fun g => makeDirAll_grounded (d := d) g workDir
  rw [same] at makes grounded
  split at opened
  · cases opened
  rename_i made
  cases opened
  obtain ⟨name, member, spelled, done⟩ := makeArea_ok made
  refine ⟨mid, name, makes, grounded, member, ?_, done⟩
  rw [spelled, absoluteDir, makes.keeps.current]

/-- What a new work area is: an empty directory `A` where nothing stood. Besides it only directories
on the way to the work directory were made. -/
structure Opened (d : Disk) (workDir : String) (names : List String) (area : String) (A : Place)
    (d' : Disk) : Prop where
  named : ∃ name ∈ names, area = Path.join (absoluteDir d workDir) name
  leads : d'.Leads area A
  free : d.get? A = none
  empty : d.Grounded → ∀ t, t ≠ [] → d'.get? (A ++ t) = none
  keeps : d.Keeps d'
  others : ∀ p, p ≠ A → d'.get? p = d.get? p ∨
    d.get? p = none ∧ d'.get? p = some .dir ∧ d'.OnWay workDir p

theorem openArea_opens (opened : openArea d workDir names = (.ok area, d')) :
    ∃ A, Opened d workDir names area A d' := by
  obtain ⟨mid, name, makes, grounded, member, spelled, made⟩ := openArea_ok opened
  obtain ⟨dir, last, aims, free, rfl⟩ := makeDir_ok made
  have keeps := put_dir_keeps mid (p := dir ++ [last]) (by simp)
  have here : (mid.put (dir ++ [last]) .dir).get? (dir ++ [last]) = some .dir := by
    simp [get?_put mid]
  refine ⟨dir ++ [last], ⟨name, member, spelled⟩,
    ⟨(aims.kept keeps).walk ⟨_, here, by simp⟩, isDirAt_iff.mpr here⟩, ?_, fun g t some => ?_,
    makes.keeps.trans keeps, fun p other => ?_⟩
  · rcases makes.made (dir ++ [last]) with same | ⟨missing, _⟩
    · rw [← same, free]
    · exact missing
  · rw [get?_put mid (by simp), if_neg (by simpa using some)]
    exact (grounded g).nothing_below free t
  · rw [get?_put mid (by simp), if_neg other]
    refine (makes.made p).imp_right fun ⟨missing, stands, onWay⟩ => ⟨missing, stands, ?_⟩
    exact onWay.kept (isDirAt_iff.mpr stands) keeps

theorem Opened.files_kept {A p : Place} {opened : Disk} {bytes : ByteArray}
    (fresh : Opened d workDir names area A opened) (grounded : d.Grounded)
    (works : opened.WorksIn A d') (held : d.get? p = some (.file bytes)) :
    d'.get? p = some (.file bytes) := by
  have outside : ¬ A <+: p := by
    rintro ⟨t, rfl⟩
    rw [grounded.nothing_below fresh.free] at held
    cases held
  rw [works.outside p outside, ← held]
  refine (fresh.others p fun here => outside (here ▸ List.prefix_rfl)).resolve_right ?_
  rintro ⟨free, _⟩
  rw [free] at held
  cases held

theorem stepsOf_spelled {current : Place} (plain : ∀ s ∈ current, IsComponent s) :
    (stepsOf ("/" ++ "/".intercalate current)).1 = current := by
  have parts : segments ("/" ++ "/".intercalate current) =
      "" :: segments ("/".intercalate current) := by
    have split := segments_slash "" ("/".intercalate current)
    rwa [String.empty_append] at split
  cases current with
  | nil => decide
  | cons s r =>
    rw [stepsOf, parts, segments_intercalate (by simp) fun t member => (plain t member).whole]
    simpa [List.filter_cons_of_pos, (plain s (by simp)).filled] using
      fun t member => (plain t (List.mem_cons_of_mem _ member)).filled

theorem leads_absoluteDir {W : Place} (homed : ∀ s ∈ d.current, IsComponent s)
    (keeps : d.Keeps d') (leads : d'.Leads (absoluteDir d workDir) W) : d'.Leads workDir W := by
  unfold absoluteDir at leads
  split at leads
  · exact leads
  · rename_i relative
    rw [Bool.not_eq_true] at relative
    obtain ⟨went, dir⟩ := leads
    rw [stepsOf_join _ relative, start_join d' _ relative, stepsOf_spelled homed] at went
    obtain ⟨q, home, onward⟩ := walk_append_ok.mp went
    have top : d'.start ("/" ++ "/".intercalate d.current) = [] := by
      simp [start, isAbsolute]
    obtain rfl : q = d'.current := by
      rw [walk_components homed home, top, keeps.current]
      rfl
    refine ⟨?_, dir⟩
    simpa [start, relative] using onward

theorem Opened.within {A : Place} (fresh : Opened d workDir names area A d')
    (homed : ∀ s ∈ d.current, IsComponent s) (plain : ∀ name ∈ names, IsComponent name) :
    ∃ W, ∃ name ∈ names, A = W ++ [name] ∧ d'.Leads workDir W := by
  obtain ⟨name, member, spelled⟩ := fresh.named
  obtain ⟨W, rfl, above⟩ := (spelled ▸ fresh.leads).of_join (plain name member)
  exact ⟨W, name, member, rfl, leads_absoluteDir homed fresh.keeps above⟩

theorem openArea_error {e : ExportError} (failed : openArea d workDir names = (.error e, d')) :
    d.MakesDirs workDir d' := by
  have makes := makeDirAll_makes d workDir
  simp only [openArea] at failed
  split at failed
  · rename_i same
    cases failed
    simpa only [same] using makes
  · rename_i mid same
    rw [same] at makes
    split at failed
    · cases failed
      exact makes
    · cases failed

end Exporter
end SignedManifest
