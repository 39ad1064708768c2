import SignedManifest.Proofs.Export.Replacing

/-!
Disks as volumes. A disk shows a volume without links on which every file has one name: each operation on
the disk answers as the one on the volume does and leaves a disk that shows what it leaves, and so does
writing an export file, whose steps are the same on both.
-/
namespace SignedManifest

/-! ### File systems that answer alike -/

inductive Parallel {α β : Type} (R : α → β → Prop) : Except IoError α → Except IoError β → Prop where
  | failed {e : IoError} : Parallel R (.error e) (.error e)
  | done {a : α} {b : β} (related : R a b) : Parallel R (.ok a) (.ok b)

namespace Parallel

variable {α β γ : Type} {R : α → β → Prop} {f : γ → Except IoError α} {g : γ → Except IoError β}

theorem along (x : Except IoError γ) (next : ∀ c, x = .ok c → Parallel R (f c) (g c)) :
    Parallel R (x >>= f) (x >>= g) := by
  cases x with
  | error e => exact .failed
  | ok c => exact next c rfl

theorem refusing {p q : Prop} [Decidable p] [Decidable q] (same : p ↔ q) {e : IoError}
    {x : Except IoError α} {y : Except IoError β} (next : ¬ p → Parallel R x y) :
    Parallel R (if p then throw e >>= f else x) (if q then throw e >>= g else y) := by
  by_cases holds : p
  · rw [if_pos holds, if_pos (same.mp holds)]
    exact .failed
  · rw [if_neg holds, if_neg (fun h => holds (same.mpr h))]
    exact next holds

theorem passing {q : Prop} [Decidable q] (passes : ¬ q) {x : Except IoError α} {y z : Except IoError β}
    (next : Parallel R x y) : Parallel R x (if q then z else y) := by
  rwa [if_neg passes]

end Parallel

namespace FileSystem
open Disk

variable {σ τ : Type} [FileSystem σ] [FileSystem τ] {R : σ → τ → Prop} {a : σ} {b : τ}

/-- What is related answers every operation alike and stays related. -/
structure Simulates (R : σ → τ → Prop) : Prop where
  makeDir : ∀ {a b}, R a b → ∀ path, Parallel R (makeDir a path) (makeDir b path)
  createFile : ∀ {a b}, R a b → ∀ path bytes, Parallel R (createFile a path bytes) (createFile b path bytes)
  renameFile : ∀ {a b}, R a b → ∀ path,
    Parallel R (renameFile a (siblingOf path) path) (renameFile b (siblingOf path) path)
  isDir : ∀ {a b}, R a b → ∀ path, isDir a path = isDir b path

def Agree {ε : Type} (R : σ → τ → Prop) (x : Except ε Unit × σ) (y : Except ε Unit × τ) : Prop :=
  x.1 = y.1 ∧ R x.2 y.2

/- The induction is on the fuel, as in the definition. -/
theorem Simulates.makeDirs (sim : Simulates R) (related : R a b) (path : String) (n : Nat) :
    Agree R (FileSystem.makeDirs a path n) (FileSystem.makeDirs b path n) := by
  induction n generalizing a b path with
  | zero => exact ⟨rfl, related⟩
  | succ n ih =>
    have again {a : σ} {b : τ} (related : R a b) (e : IoError) :
        Agree R (if FileSystem.isDir a path then (.ok (), a) else (.error e, a))
          (if FileSystem.isDir b path then (.ok (), b) else (.error e, b)) := by
      rw [sim.isDir related path]
      split <;> exact ⟨rfl, related⟩
    rw [FileSystem.makeDirs, FileSystem.makeDirs]
    split
    · exact ⟨rfl, related⟩
    have first := sim.makeDir related path
    generalize FileSystem.makeDir a path = x at first ⊢
    generalize FileSystem.makeDir b path = y at first ⊢
    cases first with
    | done related => exact ⟨rfl, related⟩
    | @failed e =>
      cases e with
      | noEntry =>
        dsimp only
        split
        · exact ⟨rfl, related⟩
        rename_i above _
        have upper := ih related above
        generalize FileSystem.makeDirs a above n = x at upper ⊢
        generalize FileSystem.makeDirs b above n = y at upper ⊢
        obtain ⟨r, a⟩ := x
        obtain ⟨_, b⟩ := y
        obtain ⟨rfl, related⟩ := upper
        cases r with
        | error e => exact ⟨rfl, related⟩
        | ok _ =>
          have last := sim.makeDir related path
          dsimp only at last ⊢
          generalize FileSystem.makeDir a path = x at last ⊢
          generalize FileSystem.makeDir b path = y at last ⊢
          cases last with
          | done related => exact ⟨rfl, related⟩
          | failed => exact again related _
      | _ => exact again related _

theorem Simulates.writeThroughUnder (sim : Simulates R) (related : R a b) (fault : Option Fault)
    (path : String) (bytes : ByteArray) :
    Agree R (FileSystem.writeThroughUnder fault a path bytes)
      (FileSystem.writeThroughUnder fault b path bytes) := by
  cases fault with
  | some fault =>
    rw [FileSystem.writeThroughUnder, FileSystem.writeThroughUnder]
    have create := sim.createFile related (siblingOf path) (bytes.extract 0 fault.written)
    generalize FileSystem.createFile a (siblingOf path) (bytes.extract 0 fault.written) = x at create ⊢
    generalize FileSystem.createFile b (siblingOf path) (bytes.extract 0 fault.written) = y at create ⊢
    cases create with
    | failed => exact ⟨rfl, related⟩
    | done related => exact ⟨rfl, related⟩
  | none =>
    simp only [FileSystem.writeThroughUnder, FileSystem.writeThrough]
    have create := sim.createFile related (siblingOf path) bytes
    generalize FileSystem.createFile a (siblingOf path) bytes = x at create ⊢
    generalize FileSystem.createFile b (siblingOf path) bytes = y at create ⊢
    cases create with
    | failed => exact ⟨rfl, related⟩
    | @done a b related =>
      have move := sim.renameFile related path
      dsimp only
      generalize FileSystem.renameFile a (siblingOf path) path = x at move ⊢
      generalize FileSystem.renameFile b (siblingOf path) path = y at move ⊢
      cases move with
      | failed => exact ⟨rfl, related⟩
      | done related => exact ⟨rfl, related⟩

theorem Simulates.writeExportUnder (sim : Simulates R) (related : R a b) (fault : Option Fault)
    (path : String) (content : FileContent) :
    Agree R (FileSystem.writeExportUnder fault a path content)
      (FileSystem.writeExportUnder fault b path content) := by
  rw [FileSystem.writeExportUnder, FileSystem.writeExportUnder]
  split
  · exact sim.writeThroughUnder related fault path content.bytes
  rename_i above _
  have upper := sim.makeDirs related above ((Path.segments above).length + 1)
  rw [makeDirAll, makeDirAll]
  generalize FileSystem.makeDirs a above ((Path.segments above).length + 1) = x at upper ⊢
  generalize FileSystem.makeDirs b above ((Path.segments above).length + 1) = y at upper ⊢
  obtain ⟨r, a⟩ := x
  obtain ⟨_, b⟩ := y
  obtain ⟨rfl, related⟩ := upper
  cases r with
  | error e => exact ⟨rfl, related⟩
  | ok _ => exact sim.writeThroughUnder related fault path content.bytes

end FileSystem

namespace Disk
open Volume

variable {v v' : Volume} {d : Disk} {p q s : Place} {path name : String} {steps : List String} {k : Nat}
  {bytes : ByteArray}

/-! ### What a volume looks like -/

def nodeOf (v : Volume) : Volume.Entry → Node
  | .file k => .file (v.bytesOf k)
  | .dir => .dir
  | .link _ => .link

/-- The disk that a volume without links and without files of several names looks like. -/
structure Shows (v : Volume) (d : Disk) : Prop where
  current : d.current = v.current
  nodes : ∀ p, d.get? p = (v.get? p).map (nodeOf v)
  bare : ∀ p target, v.get? p ≠ some (.link target)
  alone : ∀ p q k, v.get? p = some (.file k) → v.get? q = some (.file k) → p = q

theorem Shows.isDirAt (shows : Shows v d) (p : Place) : d.isDirAt p = v.isDirAt p := by
  rw [Disk.isDirAt, Volume.isDirAt, shows.nodes]
  rcases v.get? p with _ | (k | _ | target) <;> rfl

theorem Shows.isNone (shows : Shows v d) (p : Place) : (d.get? p).isNone = (v.get? p).isNone := by
  simp [shows.nodes]

theorem Shows.put_dir (shows : Shows v d) (below : p ≠ []) : Shows (v.put p .dir) (d.put p .dir) := by
  have entries := v.get?_put below .dir
  refine ⟨shows.current, fun q => ?_, fun q target link => ?_, fun q q' k one two => ?_⟩
  · rw [Disk.get?_put d below, entries]
    split
    · rfl
    · exact shows.nodes q
  · rw [entries] at link
    split at link
    · cases link
    · exact shows.bare q target link
  · rw [entries] at one two
    split at one
    · cases one
    split at two
    · cases two
    · exact shows.alone q q' k one two

theorem Shows.puts (shows : Shows v d) (puts : v.Puts q k bytes v') (below : q ≠ []) :
    Shows v' (d.put q (.file bytes)) := by
  have own (p : Place) (found : v.get? p = some (.file k)) : p = q :=
    puts.number.elim (fun same => shows.alone p q k found same) fun fresh => absurd found (fresh.2 p)
  refine ⟨shows.current.trans puts.current.symm, fun p => ?_, fun p target link => ?_,
    fun p p' j one two => ?_⟩
  · rw [Disk.get?_put d below, puts.entries]
    split
    · simp [nodeOf, puts.contents]
    · rename_i other
      rw [shows.nodes]
      refine Option.map_congr fun e found => ?_
      cases e with
      | file j =>
        have apart : j ≠ k := by
          rintro rfl
          exact other (own p found)
        simp [nodeOf, puts.contents, apart]
      | dir => rfl
      | link target => rfl
  · rw [puts.entries] at link
    split at link
    · cases link
    · exact shows.bare p target link
  · rw [puts.entries] at one two
    split at one
    · rename_i here
      cases one
      split at two
      · rename_i here'
        exact here.trans here'.symm
      · exact here.trans (own p' two).symm
    · split at two
      · rename_i here'
        cases two
        exact (own p one).trans here'.symm
      · exact shows.alone p p' j one two

theorem Shows.moves (shows : Shows v d) (source : v.get? s = some (.file k)) (fromBelow : s ≠ [])
    (toBelow : q ≠ []) :
    Shows ((v.remove s).put q (.file k)) ((d.remove s).put q (.file (v.bytesOf k))) := by
  have entries (p : Place) : ((v.remove s).put q (.file k)).get? p =
      if p = q then some (.file k) else if p = s then none else v.get? p := by
    rw [Volume.get?_put _ toBelow, Volume.get?_remove v fromBelow]
  have only (p : Place) (j : Nat) (found : ((v.remove s).put q (.file k)).get? p = some (.file j)) :
      p = q ∧ j = k ∨ p ≠ s ∧ v.get? p = some (.file j) := by
    rw [entries] at found
    split at found
    · rename_i here
      cases found
      exact .inl ⟨here, rfl⟩
    split at found
    · cases found
    · rename_i _ other
      exact .inr ⟨other, found⟩
  refine ⟨shows.current, fun p => ?_, fun p target link => ?_, fun p p' j one two => ?_⟩
  · rw [Disk.get?_put _ toBelow, Disk.get?_remove d fromBelow, entries]
    split
    · rfl
    split
    · rfl
    · exact shows.nodes p
  · rw [entries] at link
    split at link
    · cases link
    split at link
    · cases link
    · exact shows.bare p target link
  · rcases only p j one with ⟨rfl, rfl⟩ | ⟨other, found⟩
    · rcases only p' j two with ⟨rfl, _⟩ | ⟨other, found⟩
      · rfl
      · exact absurd (shows.alone p' s j found source) other
    · rcases only p' j two with ⟨rfl, rfl⟩ | ⟨_, found'⟩
      · exact absurd (shows.alone p s j found source) other
      · exact shows.alone p p' j found found'

def volumeOf (d : Disk) : Volume where
  entries := .ofList (d.nodes.toList.map fun (p, n) => (p,
    match n with
    | .file _ => .file (d.nodes.keys.idxOf p)
    | .dir => .dir
    | .link => .link ""))
  contents := .ofList (d.nodes.toList.filterMap fun (p, n) =>
    match n with
    | .file bytes => some (d.nodes.keys.idxOf p, bytes)
    | _ => none)
  current := d.current

theorem volumeOf_get? (d : Disk) (p : Place) : (volumeOf d).get? p = (d.get? p).map fun
    | .file _ => .file (d.nodes.keys.idxOf p)
    | .dir => .dir
    | .link => .link "" := by
  rw [Volume.get?, Disk.get?]
  split
  · rfl
  refine Option.ext fun e => ?_
  rw [← SortedMap.mem_toList_iff, volumeOf, SortedMap.mem_ofList]
  · simp only [List.mem_map, Prod.mk.injEq, Prod.exists, Option.map_eq_some_iff]
    constructor
    · rintro ⟨q, n, member, rfl, rfl⟩
      exact ⟨n, SortedMap.mem_toList_iff.mp member, rfl⟩
    · rintro ⟨n, found, rfl⟩
      exact ⟨p, n, SortedMap.mem_toList_iff.mpr found, rfl, rfl⟩
  · rw [List.map_map]
    exact d.nodes.keys_nodup

theorem mem_nodes_of_file (held : d.get? p = some (.file bytes)) : (p, .file bytes) ∈ d.nodes.toList := by
  rw [Disk.get?] at held
  split at held
  · cases held
  · exact SortedMap.mem_toList_iff.mpr held

theorem idxOf_keys_inj {q : Place} {n : Node} (one : (p, n) ∈ d.nodes.toList)
    (same : d.nodes.keys.idxOf p = d.nodes.keys.idxOf q) : p = q :=
  (List.idxOf_inj (List.mem_map_of_mem (f := Prod.fst) one)).mp same

theorem numbers_nodup (d : Disk) : ((d.nodes.toList.filterMap fun (p, n) =>
    match n with
    | .file bytes => some (d.nodes.keys.idxOf p, bytes)
    | _ => none).map Prod.fst).Nodup := by
  rw [List.Nodup, List.pairwise_map, List.pairwise_filterMap]
  refine (List.pairwise_map.mp d.nodes.keys_nodup).imp_of_mem fun {a a'} one _ other b numbered b'
    numbered' same => other ?_
  obtain ⟨p, n⟩ := a
  obtain ⟨q, n'⟩ := a'
  cases n <;> cases numbered
  cases n' <;> cases numbered'
  exact idxOf_keys_inj one same

theorem volumeOf_bytesOf (held : d.get? p = some (.file bytes)) :
    (volumeOf d).bytesOf (d.nodes.keys.idxOf p) = bytes := by
  have listed : (volumeOf d).contents.get? (d.nodes.keys.idxOf p) = some bytes := by
    rw [← SortedMap.mem_toList_iff, volumeOf, SortedMap.mem_ofList ?_]
    · exact List.mem_filterMap.mpr ⟨_, mem_nodes_of_file held, rfl⟩
    exact numbers_nodup d
  rw [bytesOf, listed]
  rfl

theorem shows_volumeOf (bare : ∀ p, d.get? p ≠ some .link) : Shows (volumeOf d) d := by
  refine ⟨rfl, fun p => ?_, fun p target link => ?_, fun p q k one two => ?_⟩
  · rw [volumeOf_get?]
    cases found : d.get? p with
    | none => rfl
    | some n =>
      cases n with
      | file bytes => simp [nodeOf, volumeOf_bytesOf found]
      | dir => rfl
      | link => exact absurd found (bare p)
  · rw [volumeOf_get?] at link
    obtain ⟨n, found, here⟩ := Option.map_eq_some_iff.mp link
    cases n with
    | link => exact bare p found
    | file | dir => cases here
  · rw [volumeOf_get?] at one two
    obtain ⟨n, found, here⟩ := Option.map_eq_some_iff.mp one
    obtain ⟨n', found', here'⟩ := Option.map_eq_some_iff.mp two
    cases n <;> cases here
    cases n' with
    | file => exact idxOf_keys_inj (mem_nodes_of_file found) (Volume.Entry.file.inj here').symm
    | dir | link => cases here'

/-! ### Where steps lead -/

def goal (d : Disk) (p : Place) (steps : List String) : Except IoError Goal :=
  match steps.getLast? with
  | none => .ok (.here p)
  | some s => do
    let dir ← d.walk p steps.dropLast
    if !d.isDirAt dir then .error .notDirectory
    else if s = "." then .ok (.here dir)
    else if s = ".." then .ok (.here dir.dropLast)
    else .ok (.named dir s)

theorem goal_cons (d : Disk) (p : Place) (s t : String) (r : List String) :
    d.goal p (s :: t :: r) = d.step p s >>= fun q => d.goal q (t :: r) := by
  rw [goal, List.getLast?_cons_cons, List.dropLast_cons_cons, walk]
  simp only [goal]
  cases d.step p s with
  | error e => cases h : (t :: r).getLast? with
    | none => simp at h
    | some _ => rfl
  | ok q => rfl

theorem goal_blocked (closed : d.isDirAt p = false) (s : String) (r : List String) :
    d.goal p (s :: r) = .error .notDirectory := by
  cases r with
  | nil => simp [goal, walk, closed, bind, Except.bind]
  | cons t r => simp [goal_cons, step, closed, bind, Except.bind]

theorem Shows.goal (shows : Shows v d) (through : Bool)
    (follow : Place → List String → Except IoError Goal) (p : Place) (steps : List String) :
    v.aimBy through follow p steps = d.goal p steps := by
  induction steps generalizing p with
  | nil => rfl
  | cons s r ih =>
    rw [aimBy]
    have bare : v.isLinkAt (p ++ [s]) = false := by
      rw [Bool.eq_false_iff]
      intro link
      obtain ⟨target, link⟩ := isLinkAt_iff.mp link
      exact shows.bare _ target link
    cases isDir : v.isDirAt p with
    | false => rw [goal_blocked (by rw [shows.isDirAt, isDir])]; rfl
    | true =>
      have open_ : d.isDirAt p = true := by rw [shows.isDirAt, isDir]
      simp only [Bool.not_true, Bool.false_eq_true, ↓reduceIte, bare, and_false, not_false_eq_true,
        and_true]
      cases r with
      | nil =>
        simp only [Disk.goal, walk, List.getLast?_singleton, List.dropLast_singleton, bind, Except.bind,
          open_, ih, List.getLast?_nil, ↓reduceIte, Bool.not_true, Bool.false_eq_true]
      | cons t r =>
        simp only [goal_cons, step, open_, ih, shows.nodes, reduceCtorEq, ↓reduceIte, Bool.not_true,
          Bool.false_eq_true]
        split
        · rfl
        split
        · rfl
        split
        · rfl
        cases found : v.get? (p ++ [s]) with
        | none => rfl
        | some e =>
          cases e with
          | dir => rfl
          | link target => exact absurd found (shows.bare _ target)
          | file k =>
            have closed : d.isDirAt (p ++ [s]) = false := by
              rw [shows.isDirAt, Volume.isDirAt, found]
              rfl
            exact (goal_blocked closed t r).symm

theorem Shows.aimAt (shows : Shows v d) (through : Bool) (path : String) :
    v.aimAt through path = d.goal (d.start path) (stepsOf path).1 := by
  rw [Volume.aimAt, aim_eq, shows.goal, Volume.startFrom, Disk.start, shows.current]

def reached (d : Disk) : Goal → Except IoError Place
  | .here p => .ok p
  | .named dir name =>
    if name.utf8ByteSize > nameLimit then .error .nameTooLong
    else if (d.get? (dir ++ [name])).isNone then .error .noEntry
    else .ok (dir ++ [name])

theorem Shows.walk (shows : Shows v d) (p : Place) (steps : List String) :
    d.walk p steps = d.goal p steps >>= d.reached := by
  cases steps using List.reverseRecOn with
  | nil => rfl
  | append_singleton before s =>
    simp only [walk_append, Disk.goal, List.getLast?_concat, List.dropLast_concat, bind_assoc]
    cases d.walk p before with
    | error e => rfl
    | ok dir =>
      simp only [bind, Except.bind, Disk.walk, step, reached]
      cases d.isDirAt dir with
      | false => rfl
      | true =>
        by_cases dot : s = "."
        · simp [dot]
        by_cases dots : s = ".."
        · simp [dots]
        by_cases long : s.utf8ByteSize > nameLimit
        · simp [dot, dots, long]
        · simp only [dot, dots, long, ↓reduceIte, shows.nodes, Bool.not_true, Bool.false_eq_true]
          cases found : v.get? (dir ++ [s]) with
          | none => rfl
          | some e =>
            cases e with
            | link target => exact absurd found (shows.bare _ target)
            | dir | file => rfl

theorem Shows.locate (shows : Shows v d) (path : String) : v.locate path = d.locate path := by
  rw [Volume.locate, Disk.locate]
  cases checkPath path with
  | error e => rfl
  | ok _ =>
    simp only [bind, Except.bind]
    rw [aim_eq, shows.goal, Volume.startFrom, Disk.start, shows.current, stepsTo, shows.walk]
    generalize d.goal _ _ = x
    obtain e | p | ⟨dir, name⟩ := x
    · rfl
    · rfl
    · simp only [bind, Except.bind, reached, shows.isNone]
      split
      · rfl
      split <;> rfl

theorem Shows.isDir (shows : Shows v d) (path : String) : v.isDir path = d.isDir path := by
  rw [Volume.isDir, Disk.isDir, shows.locate]
  cases d.locate path with
  | error e => rfl
  | ok p => exact (shows.isDirAt p).symm

theorem target_goal (d : Disk) (path : String) {β : Type} (none_ : Except IoError β)
    (some_ : Place → String → Except IoError β) (dots : ∀ dir name, name = "." ∨ name = ".." →
      some_ dir name = none_) :
    (d.target path >>= fun
      | none => none_
      | some (dir, name) => some_ dir name) =
    (checkPath path >>= fun _ => d.goal (d.start path) (stepsOf path).1 >>= fun
      | .here _ => none_
      | .named dir name => some_ dir name) := by
  rw [target, goal]
  cases checkPath path with
  | error e => rfl
  | ok _ =>
    simp only [bind, Except.bind]
    cases (stepsOf path).1.getLast? with
    | none => rfl
    | some name =>
      dsimp only
      cases d.walk (d.start path) (stepsOf path).1.dropLast with
      | error e => rfl
      | ok dir =>
        cases isDir : d.isDirAt dir with
        | false => simp [isDir, throw, throwThe, MonadExceptOf.throw]
        | true =>
          by_cases dot : name = "."
          · simpa [isDir, dot, pure, Except.pure] using dots dir name (.inl dot)
          by_cases up : name = ".."
          · simpa [isDir, up, pure, Except.pure] using dots dir name (.inr up)
          · simp [isDir, dot, up, pure, Except.pure]

theorem goal_named {dir : Place} (named : d.goal p steps = .ok (.named dir name)) : IsName name := by
  rw [goal] at named
  split at named
  · cases named
  · simp only [bind_ok] at named
    obtain ⟨dir', _, named⟩ := named
    split at named
    · cases named
    split at named
    · cases named
    split at named
    · cases named
    · rename_i dot up
      cases named
      exact ⟨dot, up⟩

/-! ### Operations -/

theorem Shows.makeDir (shows : Shows v d) (path : String) :
    Parallel Shows (v.makeDir path) (d.makeDir path) := by
  have aimed : d.makeDir path = (checkPath path >>= fun _ =>
      d.goal (d.start path) (stepsOf path).1 >>= fun
        | .here _ => throw .occupied
        | .named dir name => do
          if name = "." ∨ name = ".." then throw .occupied
          if name.utf8ByteSize > nameLimit then throw .nameTooLong
          if (d.get? (dir ++ [name])).isSome then throw .occupied
          return d.put (dir ++ [name]) .dir) :=
    target_goal d path _ _ fun dir name dots => by simp only [dots, ↓reduceIte]; rfl
  rw [aimed, Volume.makeDir, shows.aimAt]
  refine .along _ fun _ _ => .along _ fun aim found => ?_
  cases aim with
  | here p => exact .failed
  | named dir name =>
    have isName := goal_named found
    refine .passing (by simp [isName.1, isName.2]) (.refusing .rfl fun _ => ?_)
    exact .refusing (by simp [shows.nodes]) fun _ => .done (shows.put_dir (by simp))

theorem Shows.createFile (shows : Shows v d) (path : String) (bytes : ByteArray) :
    Parallel Shows (v.createFile path bytes) (d.createFile path bytes) := by
  have aimed : d.createFile path bytes = (checkPath path >>= fun _ =>
      d.goal (d.start path) (stepsOf path).1 >>= fun
        | .here _ => throw .isDirectory
        | .named dir name => do
          if name = "." ∨ name = ".." ∨ (stepsOf path).2 then throw .isDirectory
          if name.utf8ByteSize > nameLimit then throw .nameTooLong
          if d.isDirAt (dir ++ [name]) then throw .isDirectory
          return d.put (dir ++ [name]) (.file bytes)) :=
    target_goal d path _ _ fun dir name dots => by
      rw [if_pos (by rcases dots with dots | dots <;> simp [dots])]
      rfl
  rw [aimed, Volume.createFile, shows.aimAt]
  refine .along _ fun _ _ => .along _ fun aim found => ?_
  cases aim with
  | here p => exact .failed
  | named dir name =>
    have isName := goal_named found
    refine .refusing (by simp [isName.1, isName.2]) fun _ => .refusing .rfl fun _ => ?_
    rw [shows.isDirAt, Volume.isDirAt]
    cases there : v.get? (dir ++ [name]) with
    | none => exact .done (shows.puts (create_puts (by simp) there) (by simp))
    | some e =>
      cases e with
      | dir => exact .failed
      | link target => exact absurd there (shows.bare _ target)
      | file k => exact .done (shows.puts (rewrite_puts there) (by simp))

theorem goal_here {before : List String} (isName : IsName name) (ends : steps = before ++ [name])
    (here : d.goal p steps = .ok (.here q)) : False := by
  subst ends
  simp only [goal, List.getLast?_concat, bind_ok, isName.1, isName.2, ↓reduceIte] at here
  obtain ⟨_, _, here⟩ := here
  split at here <;> cases here

theorem Shows.locate_sibling (shows : Shows v d) (path : String) :
    d.locate (siblingOf path) = (checkPath (siblingOf path) >>= fun _ =>
      d.goal (d.start (siblingOf path)) (stepsOf (siblingOf path)).1 >>= fun
        | .here _ => throw .noEntry
        | .named dir name => d.reached (.named dir name)) := by
  obtain ⟨before, t, _, _, steps⟩ := stepsOf_sibling path
  rw [Disk.locate, steps]
  simp only [Bool.false_eq_true, ↓reduceIte, shows.walk]
  cases checkPath (siblingOf path) with
  | error e => rfl
  | ok _ =>
    simp only [bind, Except.bind]
    generalize found : d.goal (d.start (siblingOf path)) (before ++ [t ++ ".tmp"]) = x
    obtain e | p | ⟨dir, name⟩ := x
    · rfl
    · exact (goal_here (sibling_isName t) rfl found).elim
    · rfl

theorem Shows.moveTo (shows : Shows v d) (there : v.get? s = some (.file k)) (below : s ≠ [])
    (path : String) : Parallel Shows (v.moveTo s (.file k) path) (d.moveTo s (v.bytesOf k) path) := by
  have aimed : d.moveTo s (v.bytesOf k) path = (checkPath path >>= fun _ =>
      d.goal (d.start path) (stepsOf path).1 >>= fun
        | .here _ => throw .busy
        | .named dir name => do
          if name = "." ∨ name = ".." then throw .busy
          if (stepsOf path).2 then throw .notDirectory
          if name.utf8ByteSize > nameLimit then throw .nameTooLong
          if d.isDirAt (dir ++ [name]) then throw .isDirectory
          return (d.remove s).put (dir ++ [name]) (.file (v.bytesOf k))) :=
    target_goal d path _ _ fun dir name dots => by simp only [dots, ↓reduceIte]; rfl
  rw [aimed, Volume.moveTo, shows.aimAt]
  refine .along _ fun _ _ => .along _ fun aim found => ?_
  cases aim with
  | here p => exact .failed
  | named dir name =>
    have isName := goal_named found
    refine .passing (by simp [isName.1, isName.2]) (.refusing .rfl fun _ => .refusing .rfl fun _ => ?_)
    refine .refusing (by rw [shows.isDirAt]) fun _ => ?_
    have moved := shows.moves there below (q := dir ++ [name]) (by simp)
    split
    · -- the file is there already, which on a disk is moved onto itself
      rename_i same
      obtain rfl := shows.alone _ _ k same.1 there
      refine .done ⟨shows.current, fun p => ?_, shows.bare, shows.alone⟩
      rw [moved.nodes p, Volume.get?_put _ below, Volume.get?_remove v below]
      split
      · rename_i here
        rw [here, there]
        rfl
      · rfl
    · exact .done moved

theorem Shows.renameFile (shows : Shows v d) (path : String) :
    Parallel Shows (v.renameFile (siblingOf path) path) (d.renameFile (siblingOf path) path) := by
  obtain ⟨_, _, _, _, steps⟩ := stepsOf_sibling path
  rw [Disk.renameFile, shows.locate_sibling, Volume.renameFile, shows.aimAt, bind_assoc]
  refine .along _ fun _ _ => ?_
  rw [bind_assoc]
  refine .along _ fun aim found => ?_
  cases aim with
  | here p => exact .failed
  | named dir name =>
    dsimp only
    rw [reached, shows.isNone]
    by_cases long : name.utf8ByteSize > nameLimit
    · rw [if_pos long, if_pos long]
      exact .failed
    rw [if_neg long, if_neg long]
    cases there : v.get? (dir ++ [name]) with
    | none => exact .failed
    | some e =>
      have node : d.get? (dir ++ [name]) = some (nodeOf v e) := by rw [shows.nodes, there]; rfl
      have answer (F : Place → Except IoError Disk) : ((if (some e).isNone then .error .noEntry
          else .ok (dir ++ [name]) : Except IoError Place) >>= F) = F (dir ++ [name]) := rfl
      rw [answer, node]
      cases e with
      | dir => exact .failed
      | link target => exact absurd there (shows.bare _ target)
      | file k =>
        dsimp only [nodeOf]
        rw [steps, if_neg (by simp)]
        exact shows.moveTo there (by simp) path

theorem shows_simulates : FileSystem.Simulates Shows where
  makeDir := Shows.makeDir
  createFile := Shows.createFile
  renameFile := Shows.renameFile
  isDir := Shows.isDir

/- On a volume that a disk shows, writing an export file comes out as on the disk. -/
theorem Shows.writeExportUnder (shows : Shows v d) (fault : Option Fault) (path : String)
    (content : FileContent) :
    (FileSystem.writeExportUnder fault v path content).1 = (d.writeExportUnder fault path content).1 ∧
      Shows (FileSystem.writeExportUnder fault v path content).2
        (d.writeExportUnder fault path content).2 :=
  shows_simulates.writeExportUnder shows fault path content

end Disk

end SignedManifest
