import SignedManifest.Proofs.Export.Failing
import SignedManifest.Proofs.Disk.Volumes

/-!
Replacing a file. The sibling stands beside whatever its path means, so until it is moved nothing is
changed but missing directories made, and the move changes the file of the path alone. The directories
made lie on the way to the file; a way that goes up again can make one in the file's own place. Writing
the sibling follows links and reaches all names of a file, so a link or a second name there lets the
write through to a file elsewhere.
-/
namespace SignedManifest

/-! ### Writes that break off -/

/-- A write that breaks off, with the number of bytes that are in the file by then. -/
structure Disk.Fault where
  written : Nat
  cause : IoError

namespace FileSystem
open Disk

variable {σ : Type} [FileSystem σ]

def writeThroughUnder (fault : Option Fault) (d : σ) (path : String) (bytes : ByteArray) :
    Except ExportError Unit × σ :=
  match fault with
  | none => writeThrough d path bytes
  | some fault =>
    match createFile d (siblingOf path) (bytes.extract 0 fault.written) with
    | .error e => (.error (.io (siblingOf path) e), d)
    | .ok begun => (.error (.io (siblingOf path) fault.cause), begun)

def writeExportUnder (fault : Option Fault) (d : σ) (path : String) (content : FileContent) :
    Except ExportError Unit × σ :=
  match Path.parent? path with
  | none => writeThroughUnder fault d path content.bytes
  | some dir =>
    match makeDirAll d dir with
    | (.error e, d) => (.error (.io dir e), d)
    | (.ok (), d) => writeThroughUnder fault d path content.bytes

theorem writeExportUnder_none (d : σ) (path : String) (content : FileContent) :
    writeExportUnder none d path content = writeExport d path content := rfl

end FileSystem

namespace Disk
open SignedManifest.Path

variable {path : String}

def writeThroughUnder (fault : Option Fault) (d : Disk) (path : String) (bytes : ByteArray) :
    Except ExportError Unit × Disk :=
  FileSystem.writeThroughUnder fault d path bytes

def writeExportUnder (fault : Option Fault) (d : Disk) (path : String) (content : FileContent) :
    Except ExportError Unit × Disk :=
  FileSystem.writeExportUnder fault d path content

theorem writeThroughUnder_some (fault : Fault) (d : Disk) (path : String) (bytes : ByteArray) :
    writeThroughUnder (some fault) d path bytes =
      match d.createFile (siblingOf path) (bytes.extract 0 fault.written) with
      | .error e => (.error (.io (siblingOf path) e), d)
      | .ok begun => (.error (.io (siblingOf path) fault.cause), begun) := by
  rw [writeThroughUnder, FileSystem.writeThroughUnder, system_createFile]
  cases d.createFile (siblingOf path) (bytes.extract 0 fault.written) <;> rfl

theorem writeExportUnder_eq (fault : Option Fault) (d : Disk) (path : String) (content : FileContent) :
    writeExportUnder fault d path content =
      match parent? path with
      | none => d.writeThroughUnder fault path content.bytes
      | some dir =>
        match d.makeDirAll dir with
        | (.error e, d) => (.error (.io dir e), d)
        | (.ok (), d) => d.writeThroughUnder fault path content.bytes := by
  rw [writeExportUnder, FileSystem.writeExportUnder]
  cases parent? path with
  | none => rfl
  | some dir =>
    dsimp only
    rw [← makeDirAll]
    obtain ⟨e | _, made⟩ := d.makeDirAll dir <;> rfl

/-! ### Steps of paths -/

theorem stepsOf_sibling (path : String) : ∃ before s, '/' ∉ s.toList ∧
    stepsOf path = (before ++ [s].filter (· ≠ ""), s == "") ∧
    stepsOf (siblingOf path) = (before ++ [s ++ ".tmp"], false) := by
  obtain ⟨before, s, parts, split⟩ := segments_append path (by decide : '/' ∉ ".tmp".toList)
  have part : s ∈ segments path := by simp [parts]
  refine ⟨before.filter (· ≠ ""), s, segments_parts part, ?_, ?_⟩
  · simp [stepsOf, parts]
  · simp [stepsOf, siblingOf, split]

theorem tmp_ne (s : String) : s ≠ s ++ ".tmp" := by simp [← String.toList_inj]

theorem parent?_fewer {above : String} (found : parent? path = some above) (filled : above ≠ "") :
    ((stepsOf above).1.filter (· ≠ ".")).length < ((stepsOf path).1.filter (· ≠ ".")).length := by
  obtain ⟨first, rest, parts⟩ := List.exists_cons_of_ne_nil (segments_ne_nil path)
  obtain ⟨blanks, split, _⟩ := dropBlankEnd_append (segments path)
  have several : (rest.reverse.dropWhile fun s => s == "" || s == ".") ≠ [] := by
    intro none
    rw [parent?, parts, dropBlankEnd, none] at found
    simp only [List.reverse_nil] at found
    split at found
    · cases found
    · cases found
    · exact filled (Option.some.inj found).symm
    · rename_i single
      exact single _ rfl
  obtain ⟨last, before, ends⟩ := List.exists_cons_of_ne_nil several
  have named : (last == "" || last == ".") = false := by
    have head := List.head_dropWhile_not (fun s => s == "" || s == ".") several
    simpa only [ends, List.head_cons] using head
  have trimmed : dropBlankEnd (segments path) = (first :: before.reverse) ++ [last] := by
    rw [parts, dropBlankEnd, ends, List.reverse_cons, List.cons_append]
  have shorter := (parent?_before trimmed found).filter (· ≠ ".")
  have whole : (stepsOf path).1 = (first :: before.reverse).filter (· ≠ "") ++
      [last].filter (· ≠ "") ++ blanks.filter (· ≠ "") := by
    rw [stepsOf, split, trimmed, List.filter_append, List.filter_append]
  simp only [Bool.or_eq_false_iff, beq_eq_false_iff_ne] at named
  have size := shorter.length_le
  have adds : ([last].filter (· ≠ "")).filter (· ≠ ".") = [last] := by simp [named]
  rw [whole, List.filter_append, List.filter_append, adds, List.length_append, List.length_append,
    List.length_singleton]
  omega

end Disk

namespace Volume
open SignedManifest.Path Disk

variable {v mid begun after : Volume} {path above : String} {p q s : Place} {k : Nat} {bytes : ByteArray}

/-! ### Places of paths -/

/-- The place that a path names, a link at its end not followed. -/
def Spot (v : Volume) (path : String) (q : Place) : Prop :=
  ∃ g, v.Way false linkLimit (startFrom v.current path) (stepsOf path).1 g ∧ g.place = q

theorem Spot.unique (one : v.Spot path p) (two : v.Spot path q) : p = q := by
  obtain ⟨g, way, rfl⟩ := one
  obtain ⟨g', way', rfl⟩ := two
  rw [way.unique way']

theorem Spot.kept (spot : v.Spot path q) (keeps : v.Keeps mid) : mid.Spot path q := by
  obtain ⟨g, way, here⟩ := spot
  exact ⟨g, keeps.current ▸ way.kept keeps, here⟩

theorem Aims.spot {dir : Place} {name : String} (aims : v.Aims path dir name) :
    v.Spot path (dir ++ [name]) :=
  ⟨_, aims, rfl⟩

theorem startFrom_sibling (base : Place) (path : String) :
    startFrom base (siblingOf path) = startFrom base path := by
  cases chars : path.toList <;> simp [startFrom, siblingOf, isAbsolute, chars]

theorem Way.single {through : Bool} {n : Nat} {t : String} {g : Goal} (isName : IsName t)
    (way : v.Way through n p [t] g) (whole : through = false) : g = .named p t := by
  cases way with
  | stay => exact absurd rfl isName.1
  | up => exact absurd rfl isName.2
  | last => rfl
  | down _ _ _ more => exact absurd rfl more
  | link _ _ _ more =>
    rcases more with more | open_
    · exact absurd rfl more
    · rw [whole] at open_
      cases open_

theorem sibling_isName (t : String) : IsName (t ++ ".tmp") := by
  constructor <;> intro same <;>
    simpa using congrArg (fun s => s.toList.getLast?) same

theorem Spot.apart (target : v.Spot path q) (sibling : v.Spot (siblingOf path) q) :
    v.isLinkAt q = true := by
  by_contra bare
  rw [Bool.not_eq_true] at bare
  obtain ⟨before, t, _, steps, steps'⟩ := stepsOf_sibling path
  obtain ⟨g, way, rfl⟩ := target
  obtain ⟨h, way', here⟩ := sibling
  rw [steps', startFrom_sibling] at way'
  rw [steps] at way
  by_cases closed : t = ""
  · -- behind a closing slash the sibling is inside of the place
    replace way : v.Way false linkLimit (startFrom v.current path) before g := by
      simpa [closed] using way
    obtain ⟨m, way'⟩ := way.beyond bare (by simp) way'
    rw [way'.single (sibling_isName t) rfl] at here
    simp [Goal.place] at here
  · replace way : v.Way false linkLimit (startFrom v.current path) (before ++ [t]) g := by
      simpa [closed] using way
    obtain ⟨dir, ends, stay, up⟩ := way.ends
    rw [way'.unique (ends _ (sibling_isName t))] at here
    by_cases dot : t = "."
    · rw [stay dot] at here
      simp [Goal.place] at here
    by_cases dots : t = ".."
    · rw [up dots] at here
      have size := congrArg List.length here
      simp only [Goal.place, List.length_append, List.length_singleton, List.length_dropLast] at size
      omega
    · rw [way.unique (ends t ⟨dot, dots⟩)] at here
      exact tmp_ne t (by simpa [Goal.place] using here.symm)

theorem sibling_leads {dir : Place} {name : String} (way : v.Way true linkLimit
    (startFrom v.current (siblingOf path)) (stepsOf (siblingOf path)).1 (.named dir name)) :
    ∃ s, v.Spot (siblingOf path) s ∧ (v.isLinkAt s = false → s = dir ++ [name]) := by
  obtain ⟨before, t, _, _, steps⟩ := stepsOf_sibling path
  simp only [Spot, steps]
  rw [steps] at way
  obtain ⟨above, ends, _⟩ := way.ends
  have whole := ends _ (sibling_isName t)
  exact ⟨_, ⟨_, whole, rfl⟩, fun bare => by rw [(whole.whole bare).unique way]; rfl⟩

/-! ### What a write changes -/

def Untouched (v after : Volume) (p : Place) : Prop :=
  after.get? p = v.get? p ∧ after.look p = v.look p

theorem Untouched.refl (v : Volume) (p : Place) : v.Untouched v p := ⟨rfl, rfl⟩

theorem Untouched.trans (first : v.Untouched mid p) (second : mid.Untouched after p) :
    v.Untouched after p :=
  ⟨second.1.trans first.1, second.2.trans first.2⟩

theorem untouched_of_entry (entry : after.get? p = v.get? p)
    (held : ∀ k, v.get? p = some (.file k) → after.bytesOf k = v.bytesOf k) : v.Untouched after p :=
  ⟨entry, look_congr entry held⟩

def withParents (v : Volume) (path : String) : Volume :=
  match parent? path with
  | none => v
  | some above => (FileSystem.makeDirAll v above).2

def MadeAbove (v : Volume) (path : String) (after : Volume) (p : Place) : Prop :=
  v.get? p = none ∧ after.get? p = some .dir ∧
    ∃ above, parent? path = some above ∧ above ≠ "" ∧ (v.withParents path).OnWay above p

def Reaches (v : Volume) (path : String) (p : Place) : Prop :=
  ∃ dir name, v.Way true linkLimit (startFrom v.current path) (stepsOf path).1 (.named dir name) ∧
    (p = dir ++ [name] ∨ ∃ k, v.get? (dir ++ [name]) = some (.file k) ∧ v.get? p = some (.file k))

/-- A place besides that of the sibling to which writing the sibling gets through: over a link that
stands there, or because the sibling is one of several names of a file. -/
inductive Leaks (v : Volume) (path : String) (p : Place) : Prop where
  | link {s : Place} {target : String} (sibling : v.Spot (siblingOf path) s)
      (found : v.get? s = some (.link target)) (reaches : v.Reaches (siblingOf path) p)
  | name {s : Place} {k : Nat} (sibling : v.Spot (siblingOf path) s) (other : p ≠ s)
      (found : v.get? s = some (.file k)) (same : v.get? p = some (.file k))

theorem Reaches.leaks (reaches : v.Reaches (siblingOf path) p) (other : ¬ v.Spot (siblingOf path) p) :
    v.Leaks path p := by
  have whole := reaches
  obtain ⟨dir, name, way, there⟩ := reaches
  obtain ⟨s, spot, ends⟩ := sibling_leads way
  by_cases bare : v.isLinkAt s = false
  · obtain rfl := ends bare
    rcases there with rfl | ⟨k, found, same⟩
    · exact absurd spot other
    · refine .name spot ?_ found same
      rintro rfl
      exact other spot
  · obtain ⟨target, found⟩ := isLinkAt_iff.mp (Bool.not_eq_false _ ▸ bare)
    exact .link spot found whole

theorem Way.open_end {n : Nat} {steps : List String} {dir : Place} {name : String}
    (way : v.Way true n p steps (.named dir name)) : v.isLinkAt (dir ++ [name]) = false := by
  generalize goal : Goal.named dir name = g at way
  induction way with
  | done => cases goal
  | last _ _ whole =>
    cases goal
    simpa using whole
  | stay _ _ ih | up _ _ ih | down _ _ _ _ _ _ ih | link _ _ _ _ _ _ _ ih => exact ih goal

theorem Reaches.bare (reaches : v.Reaches path p) : v.isLinkAt p = false := by
  obtain ⟨dir, name, way, rfl | ⟨k, _, same⟩⟩ := reaches
  · exact way.open_end
  · simp [isLinkAt, same]

theorem Puts.untouched {dir : Place} {name : String} (puts : v.Puts (dir ++ [name]) k bytes after)
    (way : v.Way true linkLimit (startFrom v.current path) (stepsOf path).1 (.named dir name))
    (spared : ¬ v.Reaches path p) : v.Untouched after p := by
  have other : p ≠ dir ++ [name] := fun here => spared ⟨dir, name, way, .inl here⟩
  refine untouched_of_entry (by rw [puts.entries, if_neg other]) fun j found => ?_
  rw [puts.contents, if_neg]
  rintro rfl
  rcases puts.number with same | ⟨_, fresh⟩
  · exact spared ⟨dir, name, way, .inr ⟨j, same, found⟩⟩
  · exact fresh p found

/-- What a write can do when the directories are made, one rule for each way in which it ends. -/
inductive Replaces (mid : Volume) (path : String) (bytes : ByteArray) :
    Except ExportError Unit → Volume → Prop where
  | refused {e : ExportError} : Replaces mid path bytes (.error e) mid
  | stuck {e : ExportError} {part : ByteArray} {begun : Volume} {dir : Place} {name : String} {k : Nat}
      (way : mid.Way true linkLimit (startFrom mid.current (siblingOf path))
        (stepsOf (siblingOf path)).1 (.named dir name))
      (puts : mid.Puts (dir ++ [name]) k part begun) : Replaces mid path bytes (.error e) begun
  | moved {begun after : Volume} {dir : Place} {name : String} {k : Nat}
      (way : mid.Way true linkLimit (startFrom mid.current (siblingOf path))
        (stepsOf (siblingOf path)).1 (.named dir name))
      (puts : mid.Puts (dir ++ [name]) k bytes begun)
      (move : begun.renameFile (siblingOf path) path = .ok after) :
      Replaces mid path bytes (.ok ()) after

theorem writeThroughUnder_replaces {fault : Option Fault} {r : Except ExportError Unit}
    (wrote : FileSystem.writeThroughUnder fault mid path bytes = (r, after)) :
    mid.Replaces path bytes r after := by
  cases fault with
  | some fault =>
    simp only [FileSystem.writeThroughUnder] at wrote
    split at wrote
    · cases wrote
      exact .refused
    · rename_i create
      obtain ⟨dir, name, k, way, puts⟩ := createFile_ok create
      cases wrote
      exact .stuck way puts
  | none =>
    simp only [FileSystem.writeThroughUnder, FileSystem.writeThrough] at wrote
    split at wrote
    · cases wrote
      exact .refused
    rename_i create
    obtain ⟨dir, name, k, way, puts⟩ := createFile_ok create
    split at wrote
    · cases wrote
      exact .stuck way puts
    · rename_i move
      cases wrote
      exact .moved way puts move

theorem Replaces.keeps_failed {e : ExportError} (replaces : mid.Replaces path bytes (.error e) after) :
    mid.Keeps after ∧ after.Keeps mid := by
  cases replaces with
  | refused => exact ⟨.refl mid, .refl mid⟩
  | stuck _ puts => exact ⟨puts.keeps, puts.keeps_back⟩

theorem Replaces.spared_failed {e : ExportError} (replaces : mid.Replaces path bytes (.error e) after)
    (spared : ¬ mid.Reaches (siblingOf path) p) : mid.Untouched after p := by
  cases replaces with
  | refused => exact .refl mid p
  | stuck way puts => exact puts.untouched way spared

theorem Takes.spot (takes : v.Takes path p) : v.Spot path p := by
  obtain ⟨dir, name, aims, _, rfl⟩ := takes.aims
  exact aims.spot

theorem Takes.below (takes : v.Takes path p) : p ≠ [] := by
  obtain ⟨dir, name, _, _, rfl⟩ := takes.aims
  simp

/- Whatever becomes of a write, it changes nothing but the sibling, what the sibling lets it through to,
   and if it succeeds the file. -/
theorem Replaces.spared {r : Except ExportError Unit} (replaces : mid.Replaces path bytes r after)
    (sibling : ¬ mid.Spot (siblingOf path) p) (tight : ¬ mid.Leaks path p)
    (there : r = .ok () → ¬ mid.Spot path p) : mid.Untouched after p := by
  have spared : ¬ mid.Reaches (siblingOf path) p := fun reaches => tight (reaches.leaks sibling)
  cases replaces with
  | refused => exact .refl mid p
  | stuck way puts => exact puts.untouched way spared
  | moved way puts move =>
    refine (puts.untouched way spared).trans ?_
    obtain ⟨s, e, q, source, _, target, _, moved⟩ := renameFile_ok move
    have besides : p ≠ s := fun here => sibling (here ▸ source.spot.kept puts.keeps_back)
    have elsewhere : p ≠ q := fun here => there rfl (here ▸ target.spot.kept puts.keeps_back)
    rcases moved with ⟨_, _, rfl⟩ | rfl
    · exact .refl _ p
    · refine untouched_of_entry ?_ fun _ _ => rfl
      rw [get?_put _ target.below, if_neg elsewhere, get?_remove _ source.below, if_neg besides]

/-- What a write that succeeds leaves of a path at `q` and its sibling at `s`: the path's place holds
the content, and the sibling's place nothing, unless both were names of one file. Where no link was
replaced the same can be told from the paths. -/
structure Done (mid : Volume) (path : String) (bytes : ByteArray) (q s : Place) (after : Volume) :
    Prop where
  look : after.look q = some (.file bytes)
  gone : after.look s = none ∨ ∃ k, mid.get? s = some (.file k) ∧ mid.get? q = some (.file k)
  content : mid.isLinkAt q = false → after.content path = .ok bytes
  missing : mid.isLinkAt q = false → after.look s = none →
    after.locate (siblingOf path) = .error .noEntry

theorem Done.of_names {q s : Place} (target : after.Takes path q) (written : after.bytesOf k = bytes)
    (here : after.get? s = some (.file k)) (there : after.get? q = some (.file k))
    (named : mid.get? s = some (.file k) ∧ mid.get? q = some (.file k)) :
    mid.Done path bytes q s after := by
  have found : after.locate path = .ok q := by
    rw [target.locate (by simp [isLinkAt, there]), there]
    rfl
  refine ⟨by simp [Volume.look, there, written], .inr ⟨k, named⟩,
    fun _ => written ▸ content_of_locate found k there, fun _ none => ?_⟩
  simp [Volume.look, here] at none

theorem Done.of_move {q s : Place} (source : begun.Takes (siblingOf path) s)
    (target : begun.Takes path q) (own : begun.get? s = some (.file k))
    (written : begun.bytesOf k = bytes) (apart : q ≠ s) (free : begun.get? q ≠ some .dir)
    (same : begun.get? q = mid.get? q) :
    mid.Done path bytes q s ((begun.remove s).put q (.file k)) := by
  have moved := get?_put (begun.remove s) target.below (.file k)
  have absent : ((begun.remove s).put q (.file k)).get? s = none := by
    rw [moved, if_neg apart.symm, get?_remove _ source.below, if_pos rfl]
  have there : ((begun.remove s).put q (.file k)).get? q = some (.file k) := by
    rw [moved, if_pos rfl]
  -- ways stay unless a link is replaced
  have keeps (whole : mid.isLinkAt q = false) : begun.Keeps ((begun.remove s).put q (.file k)) := by
    have others (p : Place) (e : Entry) (found : begun.get? p = some e) (file : e ≠ .file k)
        (target : p ≠ q) : ((begun.remove s).put q (.file k)).get? p = some e := by
      rw [moved, if_neg target, get?_remove _ source.below, if_neg, found]
      rintro rfl
      exact file (Option.some.inj (found.symm.trans own))
    refine ⟨rfl, fun p dir => others p _ dir nofun fun here => free (here ▸ dir),
      fun p target link => others p _ link nofun ?_⟩
    rintro rfl
    rw [isLinkAt, ← same, link] at whole
    cases whole
  refine ⟨?_, .inl (by rw [Volume.look, absent]; rfl), fun whole => ?_, fun whole _ => ?_⟩
  · rw [Volume.look, there]
    exact congrArg (fun b => some (Sight.file b)) written
  · have found := (target.kept (keeps whole)).locate (by simp [isLinkAt, there])
    rw [there] at found
    exact (content_of_locate found k there).trans (congrArg _ written)
  · rw [(source.kept (keeps whole)).locate (by simp [isLinkAt, absent]), absent]
    rfl

theorem Replaces.done (replaces : mid.Replaces path bytes (.ok ()) after) :
    ∃ q s, mid.Spot path q ∧ mid.Spot (siblingOf path) s ∧
      (mid.isLinkAt s = false → mid.Done path bytes q s after) := by
  cases replaces with
  | @moved begun _ dir name k way puts move =>
    obtain ⟨s, e, q, source, held, target, free, moved⟩ := renameFile_ok move
    have spot := source.spot.kept puts.keeps_back
    refine ⟨q, s, target.spot.kept puts.keeps_back, spot, fun bare => ?_⟩
    -- what is moved is the file just written
    obtain ⟨s', spot', ends⟩ := sibling_leads way
    obtain rfl := spot'.unique spot
    obtain rfl := ends bare
    have own : begun.get? (dir ++ [name]) = some (.file k) := by rw [puts.entries, if_pos rfl]
    have written : begun.bytesOf k = bytes := by rw [puts.contents, if_pos rfl]
    obtain rfl : Entry.file k = e := Option.some.inj (own.symm.trans held)
    have apart : q ≠ dir ++ [name] := by
      rintro rfl
      have linked := target.spot.apart source.spot
      rw [isLinkAt, own] at linked
      cases linked
    have same : begun.get? q = mid.get? q := by rw [puts.entries, if_neg apart]
    rcases moved with ⟨both, _, rfl⟩ | rfl
    · rw [same] at both
      have number : mid.get? (dir ++ [name]) = some (.file k) := by
        obtain number | ⟨_, fresh⟩ := puts.number
        · exact number
        · exact absurd both (fresh q)
      exact .of_names target written own (same.trans both) ⟨number, both⟩
    · exact .of_move source target own written apart free same

/-! ### Writing an export file -/

theorem withParents_begins (v : Volume) (path : String) : v.Keeps (v.withParents path) ∧
    ∀ p, v.Untouched (v.withParents path) p ∨ v.MadeAbove path (v.withParents path) p := by
  rw [withParents.eq_def]
  cases found : parent? path with
  | none => exact ⟨.refl v, fun p => .inl (.refl v p)⟩
  | some above =>
    by_cases filled : above = ""
    · have nothing : (FileSystem.makeDirAll v above).2 = v := by
        simp [FileSystem.makeDirAll, FileSystem.makeDirs, filled]
      dsimp only
      rw [nothing]
      exact ⟨.refl v, fun p => .inl (.refl v p)⟩
    · have makes := makeDirAll_makes v above
      refine ⟨makes.keeps, fun p => ?_⟩
      rcases makes.made p with same | ⟨free, dir, onWay⟩
      · exact .inl (untouched_of_entry same fun k _ => by rw [bytesOf, makes.contents]; rfl)
      · refine .inr ⟨free, dir, above, found, filled, ?_⟩
        rw [withParents, found]
        exact onWay

theorem writeExportUnder_replaces {fault : Option Fault} {content : FileContent}
    {r : Except ExportError Unit}
    (wrote : FileSystem.writeExportUnder fault v path content = (r, after)) :
    (v.withParents path).Replaces path content.bytes r after := by
  unfold FileSystem.writeExportUnder at wrote
  rw [withParents.eq_def]
  split at wrote
  · exact writeThroughUnder_replaces wrote
  rename_i above found
  split at wrote
  · rename_i same
    cases wrote
    rw [same]
    exact .refused
  · rename_i same
    rw [same]
    exact writeThroughUnder_replaces wrote

def Grounded (v : Volume) : Prop := ∀ p ∈ v.entries.keys, v.get? p.dropLast = some .dir

instance (v : Volume) : Decidable v.Grounded := inferInstanceAs (Decidable (∀ _ ∈ _, _))

theorem Grounded.nothing_below (grounded : v.Grounded) (absent : v.get? p = none) (inside : p <+: q) :
    v.get? q = none := by
  obtain ⟨r, rfl⟩ := inside
  induction r using List.reverseRecOn with
  | nil => simpa using absent
  | append_singleton r t ih =>
    by_contra there
    obtain ⟨e, found⟩ := Option.ne_none_iff_exists'.mp there
    have listed : v.entries.get? (p ++ (r ++ [t])) = some e := by simpa [get?] using found
    have above := grounded _ (List.mem_map_of_mem (f := Prod.fst) (SortedMap.mem_toList_iff.mpr listed))
    rw [← List.append_assoc, List.dropLast_concat, ih] at above
    cases above

/- Below a directory that was made there is no link, so a path that does not go up leads farther. -/
theorem MadeAbove.goes_up (grounded : v.Grounded) (made : v.MadeAbove path after p)
    (spot : (v.withParents path).Spot path p) : ".." ∈ (stepsOf path).1 := by
  by_contra down
  obtain ⟨free, _, above, found, filled, steps, dir, name, first, way, rfl⟩ := made
  obtain ⟨g, whole, here⟩ := spot
  obtain ⟨absolute, shorter⟩ := parent?_steps found
  obtain ⟨rest, spelled⟩ := first.trans shorter
  have fewer := parent?_fewer found filled
  have part := (first.filter (· ≠ ".")).length_le
  have onward : rest.filter (· ≠ ".") ≠ [] := by
    intro none
    rw [← spelled, List.filter_append, none, List.append_nil] at fewer
    omega
  have bare (q : Place) (target : String) (inside : dir ++ [name] <+: q) :
      (v.withParents path).get? q ≠ some (.link target) := by
    intro link
    rcases (withParents_begins v path).2 q with same | ⟨_, isDir, _⟩
    · rw [same.1, grounded.nothing_below free inside] at link
      cases link
    · rw [isDir] at link
      cases link
  have noLink : (v.withParents path).isLinkAt (dir ++ [name]) = false := by
    rw [Bool.eq_false_iff]
    intro link
    obtain ⟨target, link⟩ := isLinkAt_iff.mp link
    exact bare _ _ List.prefix_rfl link
  rw [← spelled, startFrom] at whole
  rw [startFrom, absolute] at way
  obtain ⟨m, farther⟩ := way.beyond noLink (fun none => onward (by simp [none])) whole
  have straight := farther.straight (fun up => down (spelled ▸ List.mem_append_right _ up)) bare
  rw [here] at straight
  exact onward (List.append_right_eq_self.mp straight.symm)

/- Whatever becomes of a write, nothing but the file and its sibling is changed, on the way there missing
   directories are made, and besides the write reaches where a link at the sibling leads or other names
   of the sibling. A write that succeeds leaves the file with its content and no sibling, if the sibling
   was no link and no name of the file itself. A write that fails leaves the file as it was, unless the
   sibling let the write through to it, or the way of the path goes up and the place of the file is that
   of a directory made on it. -/
theorem writeExport_atomic {fault : Option Fault} {content : FileContent}
    {result : Except ExportError Unit} (grounded : v.Grounded)
    (wrote : FileSystem.writeExportUnder fault v path content = (result, after)) :
    (∀ p, ¬ (v.withParents path).Spot (siblingOf path) p → ¬ (v.withParents path).Leaks path p →
      (result = .ok () → ¬ (v.withParents path).Spot path p) →
        v.Untouched after p ∨ v.MadeAbove path after p) ∧
    (result = .ok () → ∃ q s, (v.withParents path).Spot path q ∧
      (v.withParents path).Spot (siblingOf path) s ∧ ((v.withParents path).isLinkAt s = false →
        (v.withParents path).Done path content.bytes q s after)) ∧
    (result ≠ .ok () → ∀ q, v.Spot path q ∨ after.Spot path q →
      (v.withParents path).Leaks path q ∨ v.Untouched after q ∨
        ".." ∈ (stepsOf path).1 ∧ v.MadeAbove path after q) := by
  have replaces := writeExportUnder_replaces wrote
  obtain ⟨keeps, begins⟩ := withParents_begins v path
  have whole {p : Place} (same : (v.withParents path).Untouched after p) :
      v.Untouched after p ∨ v.MadeAbove path after p :=
    (begins p).imp (·.trans same) fun ⟨free, dir, above⟩ => ⟨free, same.1.trans dir, above⟩
  refine ⟨fun p sibling tight there => whole (replaces.spared sibling tight there), ?_, ?_⟩
  · rintro rfl
    exact replaces.done
  · intro failed q meant
    obtain ⟨e, rfl⟩ : ∃ e, result = .error e := by
      cases result with
      | error e => exact ⟨e, rfl⟩
      | ok _ => exact absurd rfl failed
    have spot : (v.withParents path).Spot path q :=
      meant.elim (·.kept keeps) (·.kept replaces.keeps_failed.2)
    by_cases reaches : (v.withParents path).Reaches (siblingOf path) q
    · refine .inl (reaches.leaks fun sibling => ?_)
      have link := spot.apart sibling
      rw [reaches.bare] at link
      cases link
    · exact .inr ((whole (replaces.spared_failed reaches)).imp_right fun made =>
        ⟨made.goes_up grounded spot, made⟩)

def leftover : Volume where
  entries := .ofList [(["a"], .file 0), (["a.tmp"], .file 1)]
  contents := .ofList [(0, "old".toUTF8), (1, "ol".toUTF8)]

def noSpace : IoError := .other (IoError.numbered "No space left on device" 28)

theorem leftover_sibling {s : Place} (sibling : (leftover.withParents "/a").Spot (siblingOf "/a") s) :
    s = ["a.tmp"] :=
  sibling.unique ⟨.named [] "a.tmp", way_of_aim (by decide +kernel), rfl⟩

/- Over what was left behind, a write that runs through and one for which there is no space. -/
theorem writeExport_atomic_leftover : leftover.Grounded ∧ ∃ after broken e,
    FileSystem.writeExportUnder none leftover "/a" (.text ["new", "er"]) = (.ok (), after) ∧
      FileSystem.writeExportUnder (some ⟨2, noSpace⟩) leftover "/a" (.text ["new", "er"]) =
        (.error e, broken) ∧
      after.content "/a" = .ok "newer".toUTF8 ∧ after.look ["a.tmp"] = none ∧
      leftover.Untouched broken ["a"] := by
  have grounded : leftover.Grounded := by decide +kernel
  have answer : (FileSystem.writeExportUnder none leftover "/a" (.text ["new", "er"])).1.toOption =
      some () := by decide +kernel
  have refusal : (FileSystem.writeExportUnder (some ⟨2, noSpace⟩) leftover "/a"
      (.text ["new", "er"])).1 = .error (.io "/a.tmp" noSpace) := rfl
  obtain ⟨after, wrote⟩ := answered answer
  obtain ⟨broken, wrote'⟩ := refused refusal
  have entries : (leftover.withParents "/a").get? ["a"] = some (.file 0) ∧
      (leftover.withParents "/a").get? ["a.tmp"] = some (.file 1) := by decide +kernel
  obtain ⟨q, s, target, sibling, done⟩ := (writeExport_atomic grounded wrote).2.1 rfl
  obtain rfl := leftover_sibling sibling
  obtain rfl : q = ["a"] := target.unique ⟨.named [] "a", way_of_aim (by decide +kernel), rfl⟩
  have done := done (by simp [isLinkAt, entries])
  have text : (FileContent.text ["new", "er"]).bytes = "newer".toUTF8 := by decide +kernel
  have here : leftover.Spot "/a" ["a"] := ⟨.named [] "a", way_of_aim (by decide +kernel), rfl⟩
  have tight : ¬ (leftover.withParents "/a").Leaks "/a" ["a"] := by
    intro leaks
    cases leaks with
    | link sibling found => simp [leftover_sibling sibling, entries] at found
    | name sibling _ found same =>
      simp only [leftover_sibling sibling, entries, Option.some.injEq] at found same
      cases found.trans same.symm
  have same := (writeExport_atomic grounded wrote').2.2 nofun ["a"] (.inl here)
  have down : ".." ∉ (stepsOf "/a").1 := by decide +kernel
  refine ⟨grounded, after, broken, _, wrote, wrote', text ▸ done.content (by simp [isLinkAt, entries]),
    done.gone.resolve_right ?_, (same.resolve_left tight).resolve_right fun up => down up.1⟩
  rintro ⟨k, named, named'⟩
  rw [entries.1, ← named, entries.2] at named'
  cases named'

def shared (entries : List (Place × Entry)) : Volume where
  entries := .ofList entries
  contents := .ofList [(0, "old".toUTF8)]

def twins : Volume := shared [(["a.tmp"], .file 0), (["b"], .file 0)]

def linked : Volume := shared [(["a.tmp"], .link "b"), (["b"], .file 0)]

def ownTwin : Volume := shared [(["a"], .file 0), (["a.tmp"], .file 0)]

/- A path and a sibling that a write is not atomic on. The directory of the path is made, which is the
   place of the file as well. The sibling is another name of a file, or a link to one, and the write
   replaces its content. The sibling is another name of the file itself, which a broken write empties. -/
theorem writeExport_not_atomic :
    ((FileSystem.writeExport ({} : Volume) "/a/../a" (.text ["x"])).1.toOption = none ∧
      ({} : Volume).locate "/a/../a" = .error .noEntry ∧
      (FileSystem.writeExport ({} : Volume) "/a/../a" (.text ["x"])).2.isDir "/a/../a" = true) ∧
    (∀ v ∈ [twins, linked], v.content "/b" = .ok "old".toUTF8 ∧
      (FileSystem.writeExport v "/a" (.text ["x"])).1.toOption = some () ∧
      (FileSystem.writeExport v "/a" (.text ["x"])).2.content "/b" = .ok "x".toUTF8) ∧
    (ownTwin.content "/a" = .ok "old".toUTF8 ∧
      (FileSystem.writeExportUnder (some ⟨0, noSpace⟩) ownTwin "/a" (.text ["x"])).1.toOption = none ∧
      (FileSystem.writeExportUnder (some ⟨0, noSpace⟩) ownTwin "/a" (.text ["x"])).2.content "/a" =
        .ok ByteArray.empty) := by
  decide +kernel

end Volume

end SignedManifest
