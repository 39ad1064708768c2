import SignedManifest.Proofs.Disk.Succeeding
import SignedManifest.Proofs.Export.Runs

/-!
Writes and plans that fail. A write that fails has made directories at most: once the sibling is
there, moving it to a target that is no directory cannot fail. So a plan that fails on an empty tree
leaves exactly the files of the actions before the failing one.
-/
namespace SignedManifest
open SignedManifest.Path

namespace Disk
open SignedManifest.Path

variable {d d' : Disk} {base : String} {B : Place} {names : List String} {last : String}
  {e : ExportError}

theorem parent?_before {path above : String} {before : List String}
    (parts : dropBlankEnd (segments path) = before ++ [last]) (found : parent? path = some above) :
    (stepsOf above).1 <+: before.filter (· ≠ "") := by
  rw [parent?, parts] at found
  cases before with
  | nil =>
    simp only [List.nil_append] at found
    split at found
    · cases found
    · cases found
    · cases found
      simp [stepsOf, segments, splitChars]
    · rename_i several
      exact absurd rfl (several last)
  | cons s r =>
    simp only [List.cons_append] at found
    split at found
    · cases found
    · rename_i single
      simp at single
    · rename_i single
      simp at single
    · have cut : (s :: (r ++ [last])).dropLast = s :: r := by
        rw [← List.cons_append, List.dropLast_concat]
      obtain ⟨t, trimmed⟩ := dropBlankEnd_cons s r
      have kept : s :: t <+: s :: r := trimmed ▸ dropBlankEnd_start (s :: r)
      rw [cut, trimmed] at found
      split at found
      · cases found
        simp [stepsOf, segments, splitChars]
      · cases found
        have spelled : segments ("/".intercalate (s :: t)) = s :: t :=
          segments_intercalate (by simp) fun u member => by
            have inside : u ∈ dropBlankEnd (segments path) := by
              rw [parts]
              exact List.mem_append_left _ (kept.mem member)
            exact segments_parts ((dropBlankEnd_start _).mem inside)
        simp only [stepsOf, spelled]
        exact kept.filter _

theorem MakesDirs.beside {dir : String} (c : IsComponent last)
    (found : parent? (pathBelow base (names ++ [last])) = some dir) (makes : d.MakesDirs dir d') :
    d.MakesDirs (pathBelow base names) d' where
  keeps := makes.keeps
  made p := by
    refine (makes.made p).imp_right fun ⟨free, stands, steps, first, went⟩ =>
      ⟨free, stands, steps, first.trans ?_, ?_⟩
    · rw [pathBelow_concat] at found
      obtain ⟨before, parts⟩ := segments_join (pathBelow base names) last
      rw [segments_whole c.whole] at parts
      have steps := stepsOf_join (pathBelow base names) (isAbsolute_component c)
      rw [stepsOf_component c] at steps
      have same : before.filter (· ≠ "") = (stepsOf (pathBelow base names)).1 := by
        have all := congrArg Prod.fst steps
        simp only [stepsOf, parts, List.filter_append] at all
        rw [show [last].filter (· ≠ "") = [last] by simp [c.filled]] at all
        exact (List.append_inj' all rfl).1
      exact same ▸ parent?_before (by rw [parts, dropBlankEnd_closed c]) found
    · rw [pathBelow_concat] at found
      rwa [start, (parent?_steps found).1, ← start, start_join d' _ (isAbsolute_component c)] at went

theorem checkPath_front {front more less : String} (filled : front ++ less ≠ "")
    (clean : '\x00' ∉ less.toList) (shorter : less.utf8ByteSize ≤ more.utf8ByteSize)
    (allowed : checkPath (front ++ more) = .ok ()) : checkPath (front ++ less) = .ok () := by
  simp only [checkPath, String.toList_append, List.contains_append, Bool.or_eq_true,
    String.utf8ByteSize_append] at allowed ⊢
  split at allowed
  · cases allowed
  rename_i pure
  split at allowed
  · cases allowed
  split at allowed
  · cases allowed
  rename_i short
  simp only [not_or] at pure
  rw [if_neg (by simpa [clean] using pure.1), if_neg filled, if_neg (by omega)]

theorem checkPath_start {path more : String} (filled : path ≠ "")
    (allowed : checkPath (path ++ more) = .ok ()) : checkPath path = .ok () := by
  have taken : checkPath (path ++ "") = .ok () :=
    checkPath_front (by simpa using filled) (by simp) (by simp) allowed
  simpa using taken

theorem pathBelow_ne_empty (base : String) (plain : ∀ s ∈ names ++ [last], IsComponent s) :
    pathBelow base (names ++ [last]) ≠ "" := by
  intro none
  have steps := steps_pathBelow base plain
  rw [none] at steps
  simp [stepsOf, segments, splitChars] at steps

theorem Aims.ofSibling {dir : Place} {name : String}
    (plain : ∀ s ∈ names ++ [last], IsComponent s)
    (aims : d.Aims (siblingOf (pathBelow base (names ++ [last]))) dir name) :
    d.Aims (pathBelow base (names ++ [last])) dir last ∧ name = last ++ ".tmp" := by
  have c : IsComponent last := plain last (by simp)
  have before : ∀ s ∈ names, IsComponent s := fun s member => plain s (List.mem_append_left _ member)
  have steps := steps_pathBelow base plain
  have filled := pathBelow_ne_empty base plain
  obtain ⟨way, spelled, went⟩ := aims.way
  rw [siblingOf_pathBelow base names c] at spelled went
  have all : ∀ s ∈ names ++ [last ++ ".tmp"], IsComponent s := by
    simpa [or_imp, forall_and] using ⟨before, sibling_component c⟩
  rw [steps_pathBelow base all, ← List.append_assoc] at spelled
  obtain ⟨rfl, same⟩ := List.append_inj' spelled rfl
  obtain rfl : last ++ ".tmp" = name := by simpa using same
  rw [start_pathBelow d base all] at went
  refine ⟨⟨checkPath_start filled aims.allowed, ⟨_, by rw [steps, List.append_assoc], ?_⟩,
    aims.isDir, c, ?_⟩, rfl⟩
  · rwa [start_pathBelow d base plain]
  · have short := aims.short
    rw [String.utf8ByteSize_append] at short
    omega

theorem openEnded_pathBelow (c : IsComponent last) :
    (stepsOf (pathBelow base (names ++ [last]))).2 = false := by
  rw [pathBelow_concat, stepsOf_join _ (isAbsolute_component c), stepsOf_component c]

theorem writeThrough_of_create {bytes : ByteArray} {created : Disk}
    (plain : ∀ s ∈ names ++ [last], IsComponent s) (leads : d.Leads base B)
    (free : d.isDirAt (B ++ (names ++ [last])) = false)
    (create : d.createFile (siblingOf (pathBelow base (names ++ [last]))) bytes = .ok created) :
    ∃ d', d.writeThrough (pathBelow base (names ++ [last])) bytes = (.ok (), d') := by
  have keeps := createFile_keeps create
  rw [writeThrough_eq, create]
  obtain ⟨dir, name, aims, slash, _, rfl⟩ := createFile_ok create
  obtain ⟨target, rfl⟩ := aims.ofSibling plain
  obtain ⟨rfl, _⟩ := target.below leads plain
  have stands : (d.put (B ++ names ++ [last ++ ".tmp"]) (.file bytes)).Stands
      (B ++ names ++ [last ++ ".tmp"]) := ⟨.file bytes, by simp [get?_put d], by simp⟩
  have still : (d.put (B ++ names ++ [last ++ ".tmp"]) (.file bytes)).isDirAt
      (B ++ names ++ [last]) = false := by
    have apart : B ++ names ++ [last ++ ".tmp"] ≠ B ++ names ++ [last] := by simp
    rw [Bool.eq_false_iff, Ne, isDirAt_iff, get?_put d (by simp), if_neg apart.symm, ← isDirAt_iff,
      List.append_assoc, free]
    simp
  have held : (d.put (B ++ names ++ [last ++ ".tmp"]) (.file bytes)).get?
      (B ++ names ++ [last ++ ".tmp"]) = some (.file bytes) := by simp [get?_put d]
  have moved := renameFile_of_aims ((aims.kept keeps).locate slash stands) held (target.kept keeps)
    (openEnded_pathBelow (plain last (by simp))) still
  dsimp only
  rw [moved]
  exact ⟨_, rfl⟩

/- A write that fails has not left its sibling behind. -/
theorem writeThrough_error {bytes : ByteArray} (plain : ∀ s ∈ names ++ [last], IsComponent s)
    (leads : d.Leads base B) (free : d.isDirAt (B ++ (names ++ [last])) = false)
    (failed : d.writeThrough (pathBelow base (names ++ [last])) bytes = (.error e, d')) : d' = d := by
  cases create : d.createFile (siblingOf (pathBelow base (names ++ [last]))) bytes with
  | error e =>
    rw [writeThrough_eq, create] at failed
    cases failed
    rfl
  | ok created =>
    obtain ⟨d'', through⟩ := writeThrough_of_create plain leads free create
    rw [through] at failed
    cases failed

theorem MakesDirs.beyond (leads : d.Leads base B) (plain : ∀ s ∈ names, IsComponent s)
    (makes : d.MakesDirs (pathBelow base names) d') (s : String) :
    d'.get? (B ++ (names ++ [s])) = d.get? (B ++ (names ++ [s])) := by
  refine (makes.below leads plain _).resolve_right ?_
  rintro ⟨_, _, t, _, short, long⟩
  have size := short.length_le
  rw [← List.append_cancel_left long, List.length_append, List.length_singleton] at size
  omega

theorem writeExport_error {content : FileContent} (plain : ∀ s ∈ names ++ [last], IsComponent s)
    (leads : d.Leads base B) (free : d.isDirAt (B ++ (names ++ [last])) = false)
    (failed : d.writeExport (pathBelow base (names ++ [last])) content = (.error e, d')) :
    d.MakesDirs (pathBelow base names) d' := by
  have c : IsComponent last := plain last (by simp)
  rw [writeExport_eq] at failed
  split at failed
  · rw [writeThrough_error plain leads free failed]
    exact .refl d _
  rename_i dir found
  have makes := makeDirAll_makes d dir
  split at failed
  · rename_i same
    cases failed
    rw [same] at makes
    exact makes.beside c found
  · rename_i mid same
    rw [same] at makes
    have beside := makes.beside c found
    have above : ∀ s ∈ names, IsComponent s := fun s member => plain s (List.mem_append_left _ member)
    have still : mid.isDirAt (B ++ (names ++ [last])) = false := by
      rwa [isDirAt, beside.beyond leads above, ← isDirAt]
    rwa [writeThrough_error plain (leads.kept makes.keeps) still failed]

theorem MakesDirs.files {path : String} (makes : d.MakesDirs path d') (p : Place)
    (bytes : ByteArray) : d'.get? p = some (.file bytes) ↔ d.get? p = some (.file bytes) := by
  rcases makes.made p with same | ⟨free, dir, _⟩
  · rw [same]
  · simp [free, dir]

end Disk

/-! ### Actions and plans -/

section
variable {d d' : Disk} {base top root : String} {B : Place} {e : ExportError} {P : Place → Prop}

/-- Places of files, none of them above another one. -/
def Flat (P : Place → Prop) : Prop := ∀ p q, P p → P q → p <+: q → p = q

def Disk.Clear (d : Disk) (T : Place) (P : Place → Prop) : Prop :=
  ∀ p, P p → d.isDirAt (T ++ p) = false

theorem Action.run_error {a : Action} (leads : d.Leads base B) (c : IsComponent top)
    (sound : ∀ names, a.place? = some names → IsFilePlace names)
    (fits : ∀ names, a.place? = some names → P names) (clear : d.Clear (B ++ [top]) P)
    (failed : a.run (join base top) d = (.error e, d')) (p : Place) (bytes : ByteArray) :
    d'.get? p = some (.file bytes) ↔ d.get? p = some (.file bytes) := by
  rcases Action.run_cases failed with rfl | ⟨names, content, filled, wrote⟩
  · rfl
  have place := sound names filled
  have free := clear names (fits names filled)
  obtain ⟨names, last, rfl⟩ := (List.eq_nil_or_concat' names).resolve_left place.filled
  have plain : ∀ s ∈ top :: names ++ [last], IsComponent s := by
    intro s member
    rw [List.cons_append, List.mem_cons] at member
    rcases member with rfl | member
    · exact c
    · exact place.plain s member
  have stuck : d.writeExport (pathBelow base (top :: names ++ [last])) content = (.error e, d') :=
    wrote
  exact (Disk.writeExport_error plain leads (by simpa using free) stuck).files p bytes

/- The directories that a write makes lie above its file, and no other file is there. -/
theorem Action.run_clear {a : Action} (flat : Flat P) (leads : d.Leads base B)
    (c : IsComponent top) (sound : ∀ names, a.place? = some names → IsFilePlace names)
    (fits : ∀ names, a.place? = some names → P names) (clear : d.Clear (B ++ [top]) P)
    (ran : a.run (join base top) d = (.ok (), d')) : d'.Clear (B ++ [top]) P := by
  intro p isFile
  obtain ⟨names, content, filled, _, wrote⟩ := Action.run_ok ran
  have place := sound names filled
  have file := fits names filled
  obtain ⟨names, last, rfl⟩ := (List.eq_nil_or_concat' names).resolve_left place.filled
  have exports := Action.run_write leads c place wrote
  have written := exports.written rfl
  have moved := exports.moved rfl
  have others := exports.others (B ++ [top] ++ p)
  rw [Bool.eq_false_iff, Ne, Disk.isDirAt_iff]
  intro dir
  simp only [List.cons_append, List.append_assoc, List.nil_append, ne_eq,
    List.append_cancel_left_eq, List.cons.injEq, true_and] at written moved others dir
  by_cases here : p = names ++ [last]
  · rw [here, written] at dir
    cases dir
  by_cases sibling : p = names ++ [last ++ ".tmp"]
  · rw [sibling, moved] at dir
    cases dir
  rcases others here sibling with same | ⟨_, _, t, _, first, spelled⟩
  · have free := clear p isFile
    rw [Bool.eq_false_iff, Ne, Disk.isDirAt_iff, List.append_assoc, List.singleton_append, ← same] at free
    exact free dir
  · subst spelled
    exact here (flat p _ isFile file (List.cons_prefix_cons.mp first).2)

namespace Plan

def Fits (P : Place → Prop) (plan : Plan) : Prop := ∀ a ∈ plan, ∀ names, a.place? = some names → P names

theorem fits_append {plan rest : Plan} : Fits P (plan ++ rest) ↔ plan.Fits P ∧ rest.Fits P := by
  simp only [Fits, List.mem_append, or_imp, forall_and]

theorem Fits.effects {plan : Plan} (fits : plan.Fits P) : ∀ w ∈ plan.effects root d, P w.1 := by
  induction plan generalizing d with
  | nil => simp [Plan.effects]
  | cons a rest ih =>
    intro w member
    rcases List.mem_append.mp member with here | later
    · refine fits a (by simp) w.1 ?_
      cases a with
      | write names content =>
        obtain rfl : w = (names, content.bytes) := by simpa [Action.effect?] using here
        rfl
      | copy source names =>
        obtain ⟨text, read, rfl⟩ := by simpa [Action.effect?] using here
        rfl
      | fail e => simp [Action.effect?] at here
    · exact ih (fun b member => fits b (List.mem_cons_of_mem _ member)) w later

theorem effects_append {plan rest : Plan} {mid : Disk} (ran : run root d plan = (.ok (), mid)) :
    effects root d (plan ++ rest) = effects root d plan ++ effects root mid rest := by
  induction plan generalizing d with
  | nil =>
    cases ran
    rfl
  | cons a plan ih =>
    simp only [run] at ran
    split at ran
    · rename_i next first
      simp only [List.cons_append, effects, first, List.append_assoc, ih ran]
    · rename_i failed
      exact absurd ran (failed _)

theorem run_clear {plan : Plan} (flat : Flat P) (leads : d.Leads base B) (c : IsComponent top)
    (sound : plan.Sound) (fits : plan.Fits P) (clear : d.Clear (B ++ [top]) P)
    (ran : plan.run (join base top) d = (.ok (), d')) : d'.Clear (B ++ [top]) P := by
  induction plan generalizing d with
  | nil =>
    cases ran
    exact clear
  | cons a rest ih =>
    simp only [run] at ran
    split at ran
    · rename_i mid done
      have works := Action.run_worksIn leads c (fun names => sound a (by simp) names) done
      have next := Action.run_clear flat leads c (fun names => sound a (by simp) names)
        (fun names => fits a (by simp) names) clear done
      exact ih (leads.kept works.keeps) (fun b member => sound b (List.mem_cons_of_mem _ member))
        (fun b member => fits b (List.mem_cons_of_mem _ member)) next ran
    · rename_i failed
      exact absurd ran (failed _)

theorem run_error {plan : Plan} : plan.run root d = (.error e, d') ↔
    ∃ done failing rest mid, plan = done ++ failing :: rest ∧ run root d done = (.ok (), mid) ∧
      failing.run root mid = (.error e, d') := by
  induction plan generalizing d with
  | nil => simp [run]
  | cons a plan ih =>
    constructor
    · intro failed
      simp only [run] at failed
      split at failed
      · rename_i next first
        obtain ⟨done, failing, rest, mid, rfl, before, here⟩ := ih.mp failed
        refine ⟨a :: done, failing, rest, mid, rfl, ?_, here⟩
        simp [run, first, before]
      · exact ⟨[], a, plan, d, rfl, rfl, failed⟩
    · rintro ⟨done, failing, rest, mid, split, before, here⟩
      rw [split, run_append, before]
      simp [run, here]

/- What a plan leaves that fails: the files of the actions before the failing one. -/
theorem run_error_tree {done : Plan} {failing : Action} {mid : Disk} {ws : List (Place × ByteArray)}
    (flat : Flat P) (leads : d.Leads base B) (c : IsComponent top)
    (sound : Sound (done ++ [failing])) (fits : Fits P (done ++ [failing]))
    (clear : d.Clear (B ++ [top]) P) (tree : d.Tree (B ++ [top]) ws)
    (places : ∀ w ∈ ws, IsFilePlace w.1) (before : done.run (join base top) d = (.ok (), mid))
    (here : failing.run (join base top) mid = (.error e, d')) :
    d'.Tree (B ++ [top]) (ws ++ done.effects (join base top) d) ∧
      ∀ w ∈ ws ++ done.effects (join base top) d, IsFilePlace w.1 := by
  have soundDone : Sound done := fun a member => sound a (List.mem_append_left _ member)
  have works := run_worksIn leads c soundDone before
  obtain ⟨left, finals⟩ := run_effects leads c soundDone before tree places
  obtain ⟨fitsDone, fitsLast⟩ := fits_append.mp fits
  have free := run_clear flat leads c soundDone fitsDone clear before
  refine ⟨fun names bytes => ?_, finals⟩
  rw [← left names bytes]
  exact Action.run_error (leads.kept works.keeps) c (fun names => sound failing (by simp) names)
    (fun names => fitsLast failing (by simp) names) free here _ bytes

end Plan

end

end SignedManifest
