import SignedManifest.Proofs.Disk.Spelling
import SignedManifest.Proofs.SortedMap

/-!
Ways through a file system. A way that leads to a directory stays open as long as directories stay,
and a way of components leads straight down.
-/
namespace SignedManifest.Disk
open SignedManifest.Path

/-! ### What single changes do -/

@[simp] theorem get?_root (d : Disk) : d.get? [] = some .dir := by simp [get?]

@[simp] theorem put_current (d : Disk) (p : Place) (n : Node) :
    (d.put p n).current = d.current := rfl

@[simp] theorem remove_current (d : Disk) (p : Place) : (d.remove p).current = d.current := rfl

theorem get?_put (d : Disk) {p : Place} (below : p ≠ []) (n : Node) (q : Place) :
    (d.put p n).get? q = if q = p then some n else d.get? q := by
  by_cases root : q = []
  · simp [get?, root, Ne.symm below]
  · simp [get?, root, put, SortedMap.get?_insert]

theorem get?_remove (d : Disk) {p : Place} (below : p ≠ []) (q : Place) :
    (d.remove p).get? q = if q = p then none else d.get? q := by
  by_cases root : q = []
  · simp [get?, root, Ne.symm below]
  · simp [get?, root, remove, SortedMap.get?_erase]

theorem isDirAt_iff {d : Disk} {p : Place} : d.isDirAt p = true ↔ d.get? p = some .dir := by
  simp only [isDirAt]
  split <;> simp_all

/-! ### Single steps -/

/-- Something stands at a place that a way can lead to. -/
def Stands (d : Disk) (p : Place) : Prop := ∃ n, d.get? p = some n ∧ n ≠ .link

theorem stands_of_isDirAt {d : Disk} {p : Place} (dir : d.isDirAt p = true) : d.Stands p :=
  ⟨.dir, isDirAt_iff.mp dir, by simp⟩

theorem step_ok {d : Disk} {p q : Place} {s : String} :
    d.step p s = .ok q ↔ d.isDirAt p = true ∧
      (s = "." ∧ q = p ∨ s = ".." ∧ q = p.dropLast ∨
        s ≠ "." ∧ s ≠ ".." ∧ s.utf8ByteSize ≤ nameLimit ∧ d.Stands (p ++ [s]) ∧
          q = p ++ [s]) := by
  unfold step
  cases d.isDirAt p with
  | false => simp
  | true =>
    by_cases here : s = "."
    · subst here
      simp [eq_comm]
    by_cases above : s = ".."
    · subst above
      simp [eq_comm]
    by_cases long : s.utf8ByteSize > nameLimit
    · simp [here, above, long, Nat.not_le.mpr long]
    simp only [Bool.not_true, Bool.false_eq_true, ↓reduceIte, here, above, long, Stands]
    split
    · simp_all
    · simp_all
    · rename_i n link found
      simp only [here, above, Nat.not_lt.mp long, found, false_and, false_or, true_and,
        not_false_eq_true, ne_eq, Option.some.injEq, exists_eq_left', Except.ok.injEq, eq_comm (a := q)]
      exact ⟨fun down => ⟨link, down⟩, And.right⟩

theorem walk_append (d : Disk) (p : Place) (a b : List String) :
    d.walk p (a ++ b) = (d.walk p a).bind fun q => d.walk q b := by
  induction a generalizing p with
  | nil => rfl
  | cons s r ih =>
    simp only [List.cons_append, walk]
    cases d.step p s with
    | error e => rfl
    | ok q => exact ih q

theorem walk_append_ok {d : Disk} {p r : Place} {a b : List String} :
    d.walk p (a ++ b) = .ok r ↔ ∃ q, d.walk p a = .ok q ∧ d.walk q b = .ok r := by
  rw [walk_append]
  cases d.walk p a <;> simp [Except.bind]

theorem walk_cons_ok {d : Disk} {p q : Place} {s : String} {r : List String} :
    d.walk p (s :: r) = .ok q ↔ ∃ next, d.step p s = .ok next ∧ d.walk next r = .ok q := by
  simp only [walk]
  cases d.step p s <;> simp

theorem walk_one {d : Disk} {p q : Place} {s : String} :
    d.walk p [s] = .ok q ↔ d.step p s = .ok q := by
  simp only [walk]
  cases d.step p s <;> simp

theorem step_component {d : Disk} {p q : Place} {s : String} (c : IsComponent s)
    (went : d.step p s = .ok q) : q = p ++ [s] ∧ d.Stands q := by
  rcases (step_ok.mp went).2 with ⟨rfl, _⟩ | ⟨rfl, _⟩ | ⟨_, _, _, stands, rfl⟩
  · exact absurd rfl c.here
  · exact absurd rfl c.above
  · exact ⟨rfl, stands⟩

theorem short_of_step {d : Disk} {p q : Place} {s : String} (c : IsComponent s)
    (went : d.step p s = .ok q) : s.utf8ByteSize ≤ nameLimit := by
  rcases (step_ok.mp went).2 with ⟨here, _⟩ | ⟨above, _⟩ | ⟨_, _, short, _⟩
  · exact absurd here c.here
  · exact absurd above c.above
  · exact short

theorem walk_components {d : Disk} {p q : Place} {names : List String}
    (plain : ∀ s ∈ names, IsComponent s) (went : d.walk p names = .ok q) : q = p ++ names := by
  induction names generalizing p with
  | nil =>
    cases went
    simp
  | cons s r ih =>
    obtain ⟨next, stepped, went⟩ := walk_cons_ok.mp went
    obtain ⟨rfl, _⟩ := step_component (plain s (by simp)) stepped
    simpa using ih (fun t member => plain t (List.mem_cons_of_mem _ member)) went

/-! ### Directories that stay -/

/-- What every operation does: relative paths start where they did, and no directory goes away. -/
structure Keeps (d d' : Disk) : Prop where
  current : d'.current = d.current
  dirs : ∀ p, d.isDirAt p = true → d'.isDirAt p = true

theorem Keeps.refl (d : Disk) : d.Keeps d := ⟨rfl, fun _ dir => dir⟩

theorem Keeps.trans {a b c : Disk} (first : a.Keeps b) (second : b.Keeps c) : a.Keeps c :=
  ⟨second.current.trans first.current, fun p dir => second.dirs p (first.dirs p dir)⟩

theorem Keeps.start {d d' : Disk} (keeps : d.Keeps d') (path : String) :
    d'.start path = d.start path := by
  simp only [Disk.start, keeps.current]

theorem isDirAt_of_walk {d : Disk} {p q : Place} {names : List String}
    (went : d.walk p names = .ok q) (dir : d.isDirAt q = true) : d.isDirAt p = true := by
  cases names with
  | nil =>
    cases went
    exact dir
  | cons s r =>
    obtain ⟨next, stepped, _⟩ := walk_cons_ok.mp went
    exact (step_ok.mp stepped).1

/- All places before the last on a way are directories, so the way stays open unless its end is gone. -/
theorem Keeps.walk_of_stays {d d' : Disk} (keeps : d.Keeps d') {p q : Place} {names : List String}
    (went : d.walk p names = .ok q) (stays : d.Stands q → d'.Stands q) :
    d'.walk p names = .ok q := by
  induction names generalizing p with
  | nil =>
    cases went
    rfl
  | cons s r ih =>
    obtain ⟨next, stepped, went⟩ := walk_cons_ok.mp went
    refine walk_cons_ok.mpr ⟨next, ?_, ih went⟩
    obtain ⟨here, way⟩ := step_ok.mp stepped
    refine step_ok.mpr ⟨keeps.dirs p here, ?_⟩
    rcases way with way | way | ⟨named, above, short, stood, rfl⟩
    · exact .inl way
    · exact .inr (.inl way)
    · refine .inr (.inr ⟨named, above, short, ?_, rfl⟩)
      cases r with
      | nil =>
        cases went
        exact stays stood
      | cons t u =>
        obtain ⟨_, onward, _⟩ := walk_cons_ok.mp went
        exact stands_of_isDirAt (keeps.dirs _ (step_ok.mp onward).1)

theorem Keeps.walk {d d' : Disk} (keeps : d.Keeps d') {p q : Place} {names : List String}
    (went : d.walk p names = .ok q) (stands : d'.Stands q) : d'.walk p names = .ok q :=
  keeps.walk_of_stays went fun _ => stands

theorem Keeps.walk_dir {d d' : Disk} (keeps : d.Keeps d') {p q : Place} {names : List String}
    (went : d.walk p names = .ok q) (dir : d.isDirAt q = true) : d'.walk p names = .ok q :=
  keeps.walk went (stands_of_isDirAt (keeps.dirs q dir))

def Leads (d : Disk) (path : String) (p : Place) : Prop :=
  d.walk (d.start path) (stepsOf path).1 = .ok p ∧ d.isDirAt p = true

theorem Leads.kept {d d' : Disk} {path : String} {p : Place} (leads : d.Leads path p)
    (keeps : d.Keeps d') : d'.Leads path p :=
  ⟨keeps.start path ▸ keeps.walk_dir leads.1 leads.2, keeps.dirs p leads.2⟩

theorem Leads.unique {d : Disk} {path : String} {p q : Place} (one : d.Leads path p)
    (two : d.Leads path q) : p = q := by
  have := one.1.symm.trans two.1
  exact Except.ok.inj this

end SignedManifest.Disk
