import SignedManifest.Proofs.Disk.Walking
import SignedManifest.Proofs.Text.Utf8

/-!
What stands below a place, read off in order. The files below a place are a map of their own, and
two places with the same map below them are listed alike.
-/
namespace SignedManifest.Disk
open Text

theorem compare_below (p a b : Place) : compare (p ++ a) (p ++ b) = compare a b := by
  induction p with
  | nil => rfl
  | cons s r ih => simpa using ih

variable {d d' : Disk} {p q : Place}

theorem mem_below {names : Place} {n : Node} :
    (names, n) ∈ d.below p ↔ names ≠ [] ∧ d.get? (p ++ names) = some n := by
  simp only [below, List.mem_filterMap, Prod.exists, SortedMap.mem_toList_iff]
  constructor
  · rintro ⟨q, m, held, found⟩
    split at found
    · rename_i inside
      cases found
      simp only [Bool.and_eq_true, List.isPrefixOf_iff_prefix, decide_eq_true_eq] at inside
      obtain ⟨⟨names, rfl⟩, other⟩ := inside
      have filled : names ≠ [] := by simpa using other
      simpa [get?, filled] using held
    · cases found
  · rintro ⟨filled, held⟩
    exact ⟨p ++ names, n, by simpa [get?, filled] using held, by simp [filled]⟩

theorem mem_filesBelow {names : Place} {bytes : ByteArray} :
    (names, bytes) ∈ d.filesBelow p ↔
      names ≠ [] ∧ d.get? (p ++ names) = some (.file bytes) := by
  rw [← mem_below]
  simp only [filesBelow, List.mem_filterMap, Prod.exists]
  constructor
  · rintro ⟨q, n, member, found⟩
    cases n <;> simp_all
  · exact fun member => ⟨names, .file bytes, member, rfl⟩

theorem below_ascending (d : Disk) (p : Place) :
    (d.below p).Pairwise fun a b => compare a.1 b.1 = .lt := by
  refine List.pairwise_filterMap.mpr (d.nodes.ascending.imp ?_)
  rintro ⟨q, n⟩ ⟨q', n'⟩ before a found b found'
  simp only [Option.ite_none_right_eq_some, Bool.and_eq_true, List.isPrefixOf_iff_prefix,
    Option.some.injEq] at found found'
  obtain ⟨⟨⟨names, rfl⟩, _⟩, rfl⟩ := found
  obtain ⟨⟨⟨names', rfl⟩, _⟩, rfl⟩ := found'
  simpa [compare_below] using before

theorem filesBelow_ascending (d : Disk) (p : Place) :
    (d.filesBelow p).Pairwise fun a b => compare a.1 b.1 = .lt := by
  refine List.pairwise_filterMap.mpr ((below_ascending d p).imp ?_)
  rintro ⟨q, n⟩ ⟨q', n'⟩ before a found b found'
  cases n <;> cases n' <;> simp at found found'
  subst found found'
  exact before

def fileMap (d : Disk) (p : Place) : SortedMap Place ByteArray :=
  ⟨d.filesBelow p, filesBelow_ascending d p⟩

theorem fileMap_get? {names : Place} {bytes : ByteArray} :
    (d.fileMap p).get? names = some bytes ↔
      names ≠ [] ∧ d.get? (p ++ names) = some (.file bytes) := by
  rw [← SortedMap.mem_toList_iff, ← mem_filesBelow]
  rfl

theorem filesBelow_congr (same : ∀ names bytes, names ≠ [] →
      (d.get? (p ++ names) = some (.file bytes) ↔ d'.get? (q ++ names) = some (.file bytes))) :
    d.filesBelow p = d'.filesBelow q := by
  have maps : d.fileMap p = d'.fileMap q := SortedMap.ext_get? fun names bytes => by
    simp only [fileMap_get?]
    exact and_congr_right (same names bytes)
  exact congrArg SortedMap.toList maps

/- Places are in order when the bytes of the first names that differ are. -/
theorem compare_place {a b : Place} : compare a b = .lt ↔ a.map utf8 < b.map utf8 := by
  induction a generalizing b with
  | nil => cases b <;> simp
  | cons s a ih =>
    cases b with
    | nil => simp
    | cons t b =>
      simp [List.cons_lt_cons_iff, Ordering.then_eq_lt, compare_text, ih, utf8_inj]

end SignedManifest.Disk
