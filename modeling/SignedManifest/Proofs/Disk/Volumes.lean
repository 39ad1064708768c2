import SignedManifest.Disk.Volume
import SignedManifest.Proofs.Disk.Operations

/-!
Ways through a volume and what its operations do. A way is a derivation, one rule for each kind of
step, so what holds of all ways is proved by one case for each rule. Links change where a way leads, but
not that it stays as long as directories and links stay.
-/
namespace SignedManifest.Volume
open SignedManifest.Path Disk

variable {v v' : Volume} {p q dir : Place} {path name s : String} {steps rest : List String} {g : Goal}
  {n m k : Nat} {through : Bool} {bytes : ByteArray}

/-! ### What single changes do -/

@[simp] theorem get?_root (v : Volume) : v.get? [] = some .dir := by simp [get?]

theorem get?_put (v : Volume) (below : p ≠ []) (e : Entry) (q : Place) :
    (v.put p e).get? q = if q = p then some e else v.get? q := by
  by_cases root : q = []
  · simp [get?, root, Ne.symm below]
  · simp [get?, root, put, SortedMap.get?_insert]

theorem get?_remove (v : Volume) (below : p ≠ []) (q : Place) :
    (v.remove p).get? q = if q = p then none else v.get? q := by
  by_cases root : q = []
  · simp [get?, root, Ne.symm below]
  · simp [get?, root, remove, SortedMap.get?_erase]

@[simp] theorem get?_rewrite (v : Volume) (k : Nat) (bytes : ByteArray) (p : Place) :
    (v.rewrite k bytes).get? p = v.get? p := rfl

theorem bytesOf_rewrite (v : Volume) (k : Nat) (bytes : ByteArray) (j : Nat) :
    (v.rewrite k bytes).bytesOf j = if j = k then bytes else v.bytesOf j := by
  rw [bytesOf, rewrite]
  dsimp only
  rw [SortedMap.get?_insert]
  simp only [Std.LawfulEqCmp.compare_eq_iff_eq]
  split <;> rfl

theorem isDirAt_iff : v.isDirAt p = true ↔ v.get? p = some .dir := beq_iff_eq

theorem isLinkAt_iff : v.isLinkAt p = true ↔ ∃ target, v.get? p = some (.link target) := by
  simp only [isLinkAt]
  split <;> simp_all

theorem look_congr (entry : v'.get? p = v.get? p)
    (held : ∀ k, v.get? p = some (.file k) → v'.bytesOf k = v.bytesOf k) : v'.look p = v.look p := by
  rw [look, look, entry]
  cases found : v.get? p with
  | none => rfl
  | some e =>
    cases e with
    | file k => simp only [Option.map_some, held k found]
    | dir => rfl
    | link target => rfl

theorem le_foldl_number (l : List (Place × Entry)) (k : Nat) :
    k ≤ l.foldl (fun n (_, e) => match e with | .file j => max n (j + 1) | _ => n) k := by
  induction l generalizing k with
  | nil => exact Nat.le_refl k
  | cons x l ih =>
    obtain ⟨_, e⟩ := x
    refine Nat.le_trans ?_ (ih _)
    cases e with
    | file j => exact Nat.le_max_left k (j + 1)
    | dir => exact Nat.le_refl k
    | link target => exact Nat.le_refl k

theorem lt_foldl_number {l : List (Place × Entry)} {j : Nat} (member : (p, Entry.file j) ∈ l) (k : Nat) :
    j < l.foldl (fun n (_, e) => match e with | .file j => max n (j + 1) | _ => n) k := by
  induction l generalizing k with
  | nil => cases member
  | cons x l ih =>
    rw [List.foldl_cons]
    rcases List.mem_cons.mp member with rfl | member
    · exact Nat.lt_of_lt_of_le (Nat.lt_of_lt_of_le (Nat.lt_succ_self j) (Nat.le_max_right k (j + 1)))
        (le_foldl_number l _)
    · exact ih member _

theorem lt_freshNumber {k : Nat} (found : v.get? p = some (.file k)) : k < v.freshNumber := by
  rw [get?] at found
  split at found
  · cases found
  · exact lt_foldl_number (SortedMap.mem_toList_iff.mpr found) 0

/-! ### Ways -/

def IsName (s : String) : Prop := s ≠ "." ∧ s ≠ ".."

/-- The ways that meet no more than a number of links, one rule for each kind of step. -/
inductive Way (v : Volume) (through : Bool) : Nat → Place → List String → Goal → Prop where
  | done {n : Nat} {p : Place} : Way v through n p [] (.here p)
  | stay {n : Nat} {p : Place} {r : List String} {g : Goal} (isDir : v.isDirAt p = true)
      (way : Way v through n p r g) : Way v through n p ("." :: r) g
  | up {n : Nat} {p : Place} {r : List String} {g : Goal} (isDir : v.isDirAt p = true)
      (way : Way v through n p.dropLast r g) : Way v through n p (".." :: r) g
  | last {n : Nat} {p : Place} {s : String} (isDir : v.isDirAt p = true) (isName : IsName s)
      (whole : ¬ (through = true ∧ v.isLinkAt (p ++ [s]) = true)) :
      Way v through n p [s] (.named p s)
  | down {n : Nat} {p : Place} {s : String} {r : List String} {g : Goal} (isDir : v.isDirAt p = true)
      (isName : IsName s) (short : s.utf8ByteSize ≤ nameLimit) (more : r ≠ [])
      (found : v.get? (p ++ [s]) = some .dir) (way : Way v through n (p ++ [s]) r g) :
      Way v through n p (s :: r) g
  | link {n : Nat} {p : Place} {s target : String} {r : List String} {g : Goal}
      (isDir : v.isDirAt p = true) (isName : IsName s) (short : s.utf8ByteSize ≤ nameLimit)
      (more : r ≠ [] ∨ through = true) (found : v.get? (p ++ [s]) = some (.link target))
      (allowed : checkPath target = .ok ())
      (way : Way v through n (startFrom p target) (stepsTo target ++ r) g) :
      Way v through (n + 1) p (s :: r) g

def onward (v : Volume) (through : Bool) : Nat → Place → List String → Except IoError Goal
  | 0 => fun _ _ => .error .linkLoop
  | n + 1 => v.aim through n

theorem aim_eq (v : Volume) (through : Bool) (n : Nat) :
    v.aim through n = v.aimBy through (v.onward through n) := by
  cases n <;> rfl

/- The inner induction is on the steps, the outer one on the links that may still be met. -/
theorem way_of_aim (arrives : v.aim through n p steps = .ok g) : v.Way through n p steps g := by
  induction n using Nat.strongRecOn generalizing p steps with
  | ind n beyond =>
  induction steps generalizing p with
  | nil =>
    rw [aim_eq] at arrives
    cases arrives
    exact .done
  | cons s r ih =>
    rw [aim_eq, aimBy] at arrives
    simp only [← aim_eq] at arrives
    split at arrives
    · cases arrives
    rename_i isDir
    replace isDir : v.isDirAt p = true := by simpa using isDir
    split at arrives
    · rename_i here
      subst here
      exact .stay isDir (ih arrives)
    rename_i here
    split at arrives
    · rename_i above
      subst above
      exact .up isDir (ih arrives)
    rename_i above
    split at arrives
    · rename_i ends
      obtain ⟨rfl, whole⟩ := ends
      cases arrives
      exact .last isDir ⟨here, above⟩ whole
    rename_i more
    split at arrives
    · cases arrives
    rename_i short
    replace short := Nat.not_lt.mp short
    split at arrives
    · cases arrives
    · cases arrives
    · rename_i found
      refine .down isDir ⟨here, above⟩ short (fun none => more ⟨none, ?_⟩) found (ih arrives)
      simp [isLinkAt, found]
    · rename_i target found
      obtain ⟨_, allowed, arrives⟩ := bind_ok.mp arrives
      have onward : r ≠ [] ∨ through = true := by
        by_contra none
        simp only [not_or, ne_eq, not_not] at none
        exact more ⟨none.1, fun both => none.2 both.1⟩
      cases n with
      | zero => cases arrives
      | succ n =>
        exact .link isDir ⟨here, above⟩ short onward found allowed
          (beyond n (Nat.lt_succ_self n) arrives)

theorem Way.arrives (way : v.Way through n p steps g) : v.aim through n p steps = .ok g := by
  rw [aim_eq]
  induction way with
  | done => rfl
  | stay isDir _ ih =>
    rw [aimBy]
    simpa [isDir] using ih
  | up isDir _ ih =>
    rw [aimBy]
    simpa [isDir] using ih
  | last isDir isName whole => simp [aimBy, isDir, isName.1, isName.2, whole]
  | @down n p s r g isDir isName short more found _ ih =>
    simp [aimBy, isDir, isName.1, isName.2, more, Nat.not_lt.mpr short, found, ih]
  | @link n p s target r g isDir isName short more found allowed _ ih =>
    have isLink : v.isLinkAt (p ++ [s]) = true := isLinkAt_iff.mpr ⟨target, found⟩
    have goes : ¬ (r = [] ∧ ¬ (through = true ∧ v.isLinkAt (p ++ [s]) = true)) := by
      rintro ⟨none, whole⟩
      exact more.elim (· none) fun open_ => whole ⟨open_, isLink⟩
    rw [aimBy, if_neg (by simp [isDir]), if_neg isName.1, if_neg isName.2, if_neg goes,
      if_neg (Nat.not_lt.mpr short), found]
    dsimp only
    rw [allowed, onward, aim_eq]
    exact ih

theorem Way.unique {g' : Goal} (one : v.Way through n p steps g) (two : v.Way through n p steps g') :
    g = g' :=
  Except.ok.inj (one.arrives.symm.trans two.arrives)

/-! ### Where ways lead -/

def Goal.place : Goal → Place
  | here p => p
  | named dir name => dir ++ [name]

theorem Way.named (way : v.Way through n p steps (.named dir name)) :
    v.isDirAt dir = true ∧ IsName name := by
  generalize goal : Goal.named dir name = g at way
  induction way with
  | done => cases goal
  | last isDir isName _ =>
    cases goal
    exact ⟨isDir, isName⟩
  | stay _ _ ih | up _ _ ih | down _ _ _ _ _ _ ih | link _ _ _ _ _ _ _ ih => exact ih goal

/- A way that does not end in a link is one whether or not it goes through its end. -/
theorem Way.whole (way : v.Way false n p steps (.named dir name))
    (whole : v.isLinkAt (dir ++ [name]) = false) :
    v.Way true n p steps (.named dir name) := by
  generalize goal : Goal.named dir name = g at way
  induction way with
  | done => cases goal
  | last isDir isName _ =>
    cases goal
    exact .last isDir isName (by simp [whole])
  | stay isDir _ ih => exact .stay isDir (ih goal)
  | up isDir _ ih => exact .up isDir (ih goal)
  | down isDir isName short more found _ ih => exact .down isDir isName short more found (ih goal)
  | link isDir isName short _ found allowed _ ih =>
    exact .link isDir isName short (.inr rfl) found allowed (ih goal)

theorem Way.ends (way : v.Way through n p (steps ++ [s]) g) :
    ∃ dir, (∀ t, IsName t → v.Way false n p (steps ++ [t]) (.named dir t)) ∧
      (s = "." → g = .here dir) ∧ (s = ".." → g = .here dir.dropLast) := by
  generalize spelled : steps ++ [s] = whole at way
  induction way generalizing steps with
  | done => simp at spelled
  | @stay n p r g isDir way ih =>
    cases steps with
    | nil =>
      obtain ⟨rfl, rfl⟩ := List.cons.inj spelled
      cases way
      exact ⟨p, fun t isName => .last isDir isName (by simp), fun _ => rfl,
        fun same => absurd same (by decide)⟩
    | cons a before =>
      obtain ⟨rfl, rfl⟩ := List.cons.inj spelled
      obtain ⟨dir, ends, dots⟩ := ih rfl
      exact ⟨dir, fun t isName => .stay isDir (ends t isName), dots⟩
  | @up n p r g isDir way ih =>
    cases steps with
    | nil =>
      obtain ⟨rfl, rfl⟩ := List.cons.inj spelled
      cases way
      exact ⟨p, fun t isName => .last isDir isName (by simp),
        fun same => absurd same (by decide), fun _ => rfl⟩
    | cons a before =>
      obtain ⟨rfl, rfl⟩ := List.cons.inj spelled
      obtain ⟨dir, ends, dots⟩ := ih rfl
      exact ⟨dir, fun t isName => .up isDir (ends t isName), dots⟩
  | @last n p t isDir isName _ =>
    obtain rfl : steps = [] := by simpa using congrArg List.length spelled
    obtain ⟨rfl, _⟩ := List.cons.inj spelled
    exact ⟨p, fun t isName => .last isDir isName (by simp), (absurd · isName.1), (absurd · isName.2)⟩
  | down isDir isName' short more found way ih =>
    cases steps with
    | nil => exact absurd (List.cons.inj spelled).2.symm more
    | cons a before =>
      obtain ⟨rfl, rfl⟩ := List.cons.inj spelled
      obtain ⟨dir, ends, dots⟩ := ih rfl
      exact ⟨dir, fun t isName => .down isDir isName' short (by simp) found (ends t isName), dots⟩
  | @link n p a target r g isDir isName' short more found allowed way ih =>
    cases steps with
    | nil =>
      obtain ⟨rfl, _⟩ := List.cons.inj spelled
      exact ⟨p, fun t isName => .last isDir isName (by simp), (absurd · isName'.1),
        (absurd · isName'.2)⟩
    | cons b before =>
      obtain ⟨rfl, rfl⟩ := List.cons.inj spelled
      obtain ⟨dir, ends, dots⟩ := @ih (stepsTo target ++ before) (by simp)
      exact ⟨dir, fun t isName => .link isDir isName' short (.inl (by simp)) found allowed
        (by simpa using ends t isName), dots⟩

/- A way that goes on behind a place that is no link goes on from that place. -/
theorem Way.beyond {h : Goal} (way : v.Way false n p steps g) (bare : v.isLinkAt g.place = false)
    (more : rest ≠ []) (farther : v.Way false n p (steps ++ rest) h) :
    ∃ m, v.Way false m g.place rest h := by
  generalize spelled : steps ++ rest = whole at farther
  induction way generalizing whole with
  | done => exact ⟨_, spelled ▸ farther⟩
  | last _ isName _ =>
    cases farther with
    | done => cases spelled
    | stay => exact absurd (List.cons.inj spelled).1 isName.1
    | up => exact absurd (List.cons.inj spelled).1 isName.2
    | last => exact absurd (List.cons.inj spelled).2 more
    | down _ _ _ _ _ way =>
      obtain ⟨rfl, rfl⟩ := List.cons.inj spelled
      exact ⟨_, way⟩
    | link _ _ _ _ found _ _ =>
      obtain ⟨rfl, rfl⟩ := List.cons.inj spelled
      rw [Goal.place, isLinkAt, found] at bare
      cases bare
  | stay _ _ ih =>
    cases farther with
    | done => cases spelled
    | stay _ way => exact ih bare _ (List.cons.inj spelled).2 way
    | up => exact absurd (List.cons.inj spelled).1 (by decide)
    | last _ isName | down _ isName | link _ isName =>
      exact absurd (List.cons.inj spelled).1.symm isName.1
  | up _ _ ih =>
    cases farther with
    | done => cases spelled
    | stay => exact absurd (List.cons.inj spelled).1 (by decide)
    | up _ way => exact ih bare _ (List.cons.inj spelled).2 way
    | last _ isName | down _ isName | link _ isName =>
      exact absurd (List.cons.inj spelled).1.symm isName.2
  | down _ isName _ _ found _ ih =>
    cases farther with
    | done => cases spelled
    | stay => exact absurd (List.cons.inj spelled).1 isName.1
    | up => exact absurd (List.cons.inj spelled).1 isName.2
    | last => exact absurd (List.append_eq_nil_iff.mp (List.cons.inj spelled).2).2 more
    | down _ _ _ _ _ way =>
      obtain ⟨rfl, onward⟩ := List.cons.inj spelled
      exact ih bare _ onward way
    | link _ _ _ _ found' _ _ =>
      obtain ⟨rfl, _⟩ := List.cons.inj spelled
      rw [found] at found'
      cases found'
  | link _ isName _ _ found _ _ ih =>
    cases farther with
    | done => cases spelled
    | stay => exact absurd (List.cons.inj spelled).1 isName.1
    | up => exact absurd (List.cons.inj spelled).1 isName.2
    | last => exact absurd (List.append_eq_nil_iff.mp (List.cons.inj spelled).2).2 more
    | down _ _ _ _ found' _ =>
      obtain ⟨rfl, _⟩ := List.cons.inj spelled
      rw [found] at found'
      cases found'
    | link _ _ _ _ found' _ way =>
      obtain ⟨rfl, rfl⟩ := List.cons.inj spelled
      rw [found] at found'
      cases found'
      exact ih bare _ (List.append_assoc ..) way

theorem Way.straight (way : v.Way through n p steps g) (down : ".." ∉ steps)
    (bare : ∀ q target, p <+: q → v.get? q ≠ some (.link target)) :
    g.place = p ++ steps.filter (· ≠ ".") := by
  induction way with
  | done => simp [Goal.place]
  | stay _ _ ih => simpa using ih (fun up => down (by simp [up])) bare
  | up => exact absurd (by simp) down
  | last _ isName _ => simp [Goal.place, isName.1]
  | down _ isName _ _ _ _ ih =>
    simpa [isName.1] using ih (fun up => down (by simp [up])) fun q target inside =>
      bare q target ((List.prefix_append _ _).trans inside)
  | link _ _ _ _ found => exact absurd found (bare _ _ (List.prefix_append _ _))

/-! ### What stays -/

/-- Relative paths start where they did, and neither a directory nor a link goes away. -/
structure Keeps (v v' : Volume) : Prop where
  current : v'.current = v.current
  dirs : ∀ p, v.get? p = some .dir → v'.get? p = some .dir
  links : ∀ p target, v.get? p = some (.link target) → v'.get? p = some (.link target)

theorem Keeps.refl (v : Volume) : v.Keeps v := ⟨rfl, fun _ dir => dir, fun _ _ link => link⟩

theorem Keeps.trans {a b c : Volume} (first : a.Keeps b) (second : b.Keeps c) : a.Keeps c where
  current := second.current.trans first.current
  dirs p dir := second.dirs p (first.dirs p dir)
  links p target link := second.links p target (first.links p target link)

theorem Keeps.isDirAt (keeps : v.Keeps v') (isDir : v.isDirAt p = true) : v'.isDirAt p = true :=
  isDirAt_iff.mpr (keeps.dirs p (isDirAt_iff.mp isDir))

theorem Way.kept (way : v.Way false n p steps g) (keeps : v.Keeps v') : v'.Way false n p steps g := by
  induction way with
  | done => exact .done
  | stay isDir _ ih => exact .stay (keeps.isDirAt isDir) ih
  | up isDir _ ih => exact .up (keeps.isDirAt isDir) ih
  | last isDir isName _ => exact .last (keeps.isDirAt isDir) isName (by simp)
  | down isDir isName short more found _ ih =>
    exact .down (keeps.isDirAt isDir) isName short more (keeps.dirs _ found) ih
  | link isDir isName short more found allowed _ ih =>
    exact .link (keeps.isDirAt isDir) isName short more (keeps.links _ _ found) allowed ih

/-! ### Operations that succeed -/

def Aims (v : Volume) (path : String) (dir : Place) (name : String) : Prop :=
  v.Way false linkLimit (startFrom v.current path) (stepsOf path).1 (.named dir name)

theorem Aims.unique {dir' : Place} {name' : String} (one : v.Aims path dir name)
    (two : v.Aims path dir' name') : dir = dir' ∧ name = name' :=
  Goal.named.inj (Way.unique one two)

theorem Aims.kept (aims : v.Aims path dir name) (keeps : v.Keeps v') : v'.Aims path dir name := by
  rw [Aims, keeps.current]
  exact Way.kept aims keeps

theorem makeDir_ok (made : v.makeDir path = .ok v') : ∃ dir name, v.Aims path dir name ∧
    v.get? (dir ++ [name]) = none ∧ v' = v.put (dir ++ [name]) .dir := by
  simp only [makeDir, bind_ok] at made
  obtain ⟨_, _, goal, aimed, made⟩ := made
  split at made
  · simp [throw_ok] at made
  · rename_i dir name
    simp only [unless_ok, pure_ok] at made
    obtain ⟨_, free, rfl⟩ := made
    exact ⟨dir, name, way_of_aim aimed, by simpa using free, rfl⟩

/-- What writing a file does: its place leads to a number, its own one or one that no name leads to,
and that number has the content. -/
structure Puts (v : Volume) (q : Place) (k : Nat) (bytes : ByteArray) (v' : Volume) : Prop where
  current : v'.current = v.current
  number : v.get? q = some (.file k) ∨ v.get? q = none ∧ ∀ p, v.get? p ≠ some (.file k)
  entries : ∀ p, v'.get? p = if p = q then some (.file k) else v.get? p
  contents : ∀ j, v'.bytesOf j = if j = k then bytes else v.bytesOf j

theorem rewrite_puts (found : v.get? q = some (.file k)) : v.Puts q k bytes (v.rewrite k bytes) where
  current := rfl
  number := .inl found
  entries p := by
    rw [get?_rewrite]
    split
    · rename_i here
      rw [here, found]
    · rfl
  contents := v.bytesOf_rewrite k bytes

theorem create_puts (below : q ≠ []) (free : v.get? q = none) : v.Puts q v.freshNumber bytes
    ((v.put q (.file v.freshNumber)).rewrite v.freshNumber bytes) where
  current := rfl
  number := .inr ⟨free, fun _ found => Nat.lt_irrefl _ (lt_freshNumber found)⟩
  entries p := by rw [get?_rewrite, get?_put v below]
  contents := bytesOf_rewrite _ v.freshNumber bytes

theorem createFile_ok (made : v.createFile path bytes = .ok v') : ∃ dir name k,
    v.Way true linkLimit (startFrom v.current path) (stepsOf path).1 (.named dir name) ∧
      v.Puts (dir ++ [name]) k bytes v' := by
  simp only [createFile, bind_ok] at made
  obtain ⟨_, _, goal, aimed, made⟩ := made
  split at made
  · simp [throw_ok] at made
  · rename_i dir name
    simp only [unless_ok] at made
    obtain ⟨_, _, made⟩ := made
    split at made
    · simp [throw_ok] at made
    · simp [throw_ok] at made
    · rename_i k found
      obtain rfl := pure_ok.mp made
      exact ⟨dir, name, k, way_of_aim aimed, rewrite_puts found⟩
    · rename_i free
      obtain rfl := pure_ok.mp made
      exact ⟨dir, name, v.freshNumber, way_of_aim aimed, create_puts (by simp) free⟩

theorem Puts.bare (puts : v.Puts q k bytes v') : ∀ e, v.get? q = some e → e = .file k := by
  intro e found
  rcases puts.number with same | ⟨free, _⟩
  · exact Option.some.inj (found.symm.trans same)
  · rw [free] at found
    cases found

theorem Puts.keeps (puts : v.Puts q k bytes v') : v.Keeps v' := by
  have others (p : Place) (e : Entry) (found : v.get? p = some e) (other : e ≠ .file k) :
      v'.get? p = some e := by
    rw [puts.entries, if_neg, found]
    rintro rfl
    exact other (puts.bare e found)
  exact ⟨puts.current, fun p dir => others p _ dir nofun, fun p target link => others p _ link nofun⟩

theorem Puts.keeps_back (puts : v.Puts q k bytes v') : v'.Keeps v := by
  have others (p : Place) (e : Entry) (found : v'.get? p = some e) (other : e ≠ .file k) :
      v.get? p = some e := by
    rw [puts.entries] at found
    split at found
    · exact absurd (Option.some.inj found).symm other
    · exact found
  exact ⟨puts.current.symm, fun p dir => others p _ dir nofun,
    fun p target link => others p _ link nofun⟩

structure Takes (v : Volume) (path : String) (p : Place) : Prop where
  allowed : checkPath path = .ok ()
  openEnded : (stepsOf path).2 = false
  aims : ∃ dir name, v.Aims path dir name ∧ name.utf8ByteSize ≤ nameLimit ∧ p = dir ++ [name]

theorem moveTo_ok {e : Entry} (other : e ≠ .dir) (moved : v.moveTo p e path = .ok v') :
    ∃ q, v.Takes path q ∧ v.get? q ≠ some .dir ∧
      (v.get? q = some e ∧ e ≠ .dir ∧ v' = v ∨ v' = (v.remove p).put q e) := by
  simp only [moveTo, bind_ok] at moved
  obtain ⟨_, allowed, goal, aimed, moved⟩ := moved
  split at moved
  · simp [throw_ok] at moved
  rename_i dir name
  simp only [unless_ok] at moved
  obtain ⟨slash, short, free, moved⟩ := moved
  refine ⟨dir ++ [name],
    ⟨allowed, by simpa using slash, dir, name, way_of_aim aimed, Nat.not_lt.mp short, rfl⟩,
    fun isDir => free (isDirAt_iff.mpr isDir), ?_⟩
  split at moved
  · rename_i same
    exact .inl ⟨same.1, other, (pure_ok.mp moved).symm⟩
  · exact .inr (pure_ok.mp moved).symm

theorem renameFile_ok {source : String} (moved : v.renameFile source path = .ok v') :
    ∃ s e q, v.Takes source s ∧ v.get? s = some e ∧ v.Takes path q ∧ v.get? q ≠ some .dir ∧
      (v.get? q = some e ∧ e ≠ .dir ∧ v' = v ∨ v' = (v.remove s).put q e) := by
  simp only [renameFile, bind_ok] at moved
  obtain ⟨_, allowed, goal, aimed, moved⟩ := moved
  split at moved
  · simp [throw_ok] at moved
  rename_i dir name
  simp only [unless_ok] at moved
  obtain ⟨short, moved⟩ := moved
  split at moved
  · simp [throw_ok] at moved
  · simp [throw_ok] at moved
  rename_i e other found
  simp only [unless_ok] at moved
  obtain ⟨slash, moved⟩ := moved
  obtain ⟨q, target⟩ := moveTo_ok other moved
  exact ⟨dir ++ [name], e, q,
    ⟨allowed, by simpa using slash, dir, name, way_of_aim aimed, Nat.not_lt.mp short, rfl⟩, found, target⟩

theorem Takes.kept (takes : v.Takes path p) (keeps : v.Keeps v') : v'.Takes path p := by
  obtain ⟨dir, name, aims, short, here⟩ := takes.aims
  exact ⟨takes.allowed, takes.openEnded, dir, name, aims.kept keeps, short, here⟩

theorem Takes.locate (takes : v.Takes path p) (bare : v.isLinkAt p = false) :
    v.locate path = if (v.get? p).isNone then .error .noEntry else .ok p := by
  obtain ⟨dir, name, aims, short, rfl⟩ := takes.aims
  have whole : stepsTo path = (stepsOf path).1 := by simp [stepsTo, takes.openEnded]
  rw [Volume.locate, takes.allowed, whole]
  simp only [bind, Except.bind, (Way.whole aims bare).arrives, Nat.not_lt.mpr short, ↓reduceIte]
  split <;> rfl

theorem content_of_locate {q : Place} (found : v.locate path = .ok q) (k : Nat)
    (there : v.get? q = some (.file k)) : v.content path = .ok (v.bytesOf k) := by
  rw [content, found]
  simp only [bind, Except.bind, there]
  rfl

/-! ### Making directories -/

def OnWay (v : Volume) (path : String) (p : Place) : Prop :=
  ∃ steps dir name, steps <+: (stepsOf path).1 ∧
    v.Way false linkLimit (startFrom v.current path) steps (.named dir name) ∧ p = dir ++ [name]

theorem OnWay.kept (onWay : v.OnWay path p) (keeps : v.Keeps v') : v'.OnWay path p := by
  obtain ⟨steps, dir, name, first, way, here⟩ := onWay
  exact ⟨steps, dir, name, first, keeps.current ▸ way.kept keeps, here⟩

theorem OnWay.above {above : String} (found : parent? path = some above) (onWay : v.OnWay above p) :
    v.OnWay path p := by
  obtain ⟨steps, dir, name, first, way, here⟩ := onWay
  obtain ⟨absolute, shorter⟩ := parent?_steps found
  refine ⟨steps, dir, name, first.trans shorter, ?_, here⟩
  simpa only [startFrom, absolute] using way

structure MakesDirs (v : Volume) (path : String) (v' : Volume) : Prop where
  keeps : v.Keeps v'
  contents : v'.contents = v.contents
  made : ∀ p, v'.get? p = v.get? p ∨ v.get? p = none ∧ v'.get? p = some .dir ∧ v'.OnWay path p

theorem MakesDirs.refl (v : Volume) (path : String) : v.MakesDirs path v :=
  ⟨.refl v, rfl, fun _ => .inl rfl⟩

theorem MakesDirs.above {above : String} (found : parent? path = some above)
    (makes : v.MakesDirs above v') : v.MakesDirs path v' :=
  ⟨makes.keeps, makes.contents, fun p => (makes.made p).imp_right fun ⟨free, dir, onWay⟩ =>
    ⟨free, dir, onWay.above found⟩⟩

theorem MakesDirs.trans {a b c : Volume} (first : a.MakesDirs path b) (second : b.MakesDirs path c) :
    a.MakesDirs path c where
  keeps := first.keeps.trans second.keeps
  contents := second.contents.trans first.contents
  made p := by
    rcases first.made p with same | ⟨free, dir, onWay⟩
    · simpa only [same] using second.made p
    · exact .inr ⟨free, second.keeps.dirs p dir, onWay.kept second.keeps⟩

theorem makeDir_makes (made : v.makeDir path = .ok v') : v.MakesDirs path v' := by
  obtain ⟨dir, name, aims, free, rfl⟩ := makeDir_ok made
  have others (p : Place) (e : Entry) (found : v.get? p = some e) :
      (v.put (dir ++ [name]) .dir).get? p = some e := by
    rw [get?_put v (by simp), if_neg, found]
    rintro rfl
    rw [free] at found
    cases found
  have keeps : v.Keeps (v.put (dir ++ [name]) .dir) :=
    ⟨rfl, fun p => others p _, fun p target => others p _⟩
  refine ⟨keeps, rfl, fun p => ?_⟩
  rw [get?_put v (by simp)]
  split
  · rename_i here
    subst here
    exact .inr ⟨free, rfl, _, dir, name, List.prefix_rfl, Way.kept aims keeps, rfl⟩
  · exact .inl rfl

theorem makeDirs_makes (v : Volume) (path : String) (n : Nat) :
    v.MakesDirs path (FileSystem.makeDirs v path n).2 := by
  induction n generalizing v path with
  | zero => exact .refl v path
  | succ n ih =>
    rw [FileSystem.makeDirs]
    split
    · exact .refl v path
    split
    · rename_i made done
      exact makeDir_makes done
    · split
      · exact .refl v path
      · rename_i above found
        have upper := (ih v above).above found
        split
        · rename_i same
          simpa only [same] using upper
        · rename_i same
          rw [same] at upper
          split
          · rename_i done
            exact upper.trans (makeDir_makes done)
          · split <;> exact upper
    · split <;> exact .refl v path

theorem makeDirAll_makes (v : Volume) (path : String) :
    v.MakesDirs path (FileSystem.makeDirAll v path).2 :=
  makeDirs_makes v path _

end SignedManifest.Volume
