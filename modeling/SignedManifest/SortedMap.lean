/-!
Finite maps kept as lists in strictly ascending key order. The order is part of the value, so two
maps with the same entries are equal and reading a map off in order needs no sorting.
-/
namespace SignedManifest

/-- A finite map whose entries stand in ascending key order, each key once. -/
structure SortedMap (κ : Type) (β : Type) [Ord κ] where
  toList : List (κ × β)
  ascending : toList.Pairwise fun a b => compare a.1 b.1 = .lt

namespace SortedMap

variable {κ β : Type} [Ord κ]

@[ext] theorem ext {m n : SortedMap κ β} (h : m.toList = n.toList) : m = n := by
  cases m; cases n; simp_all

def empty : SortedMap κ β := ⟨[], .nil⟩

instance : EmptyCollection (SortedMap κ β) := ⟨empty⟩

instance : Inhabited (SortedMap κ β) := ⟨∅⟩

instance [Repr κ] [Repr β] : Repr (SortedMap κ β) := ⟨fun m p => reprPrec m.toList p⟩

def get? (m : SortedMap κ β) (k : κ) : Option β :=
  (m.toList.find? fun e => compare k e.1 == .eq).map (·.2)

def contains (m : SortedMap κ β) (k : κ) : Bool := (m.get? k).isSome

def filter (m : SortedMap κ β) (p : κ → β → Bool) : SortedMap κ β :=
  ⟨m.toList.filter fun e => p e.1 e.2, m.ascending.filter _⟩

def erase (m : SortedMap κ β) (k : κ) : SortedMap κ β :=
  m.filter fun j _ => compare k j != .eq

def keys (m : SortedMap κ β) : List κ := m.toList.map (·.1)

def values (m : SortedMap κ β) : List β := m.toList.map (·.2)

/-- The entries with one key set, a key already present keeping its place. -/
def insertEntry (k : κ) (v : β) : List (κ × β) → List (κ × β)
  | [] => [(k, v)]
  | (j, w) :: r =>
    match compare k j with
    | .lt => (k, v) :: (j, w) :: r
    | .eq => (k, v) :: r
    | .gt => (j, w) :: insertEntry k v r

theorem mem_insertEntry {k : κ} {v : β} {l : List (κ × β)} {x : κ × β}
    (h : x ∈ insertEntry k v l) : x = (k, v) ∨ x ∈ l := by
  induction l with
  | nil => simp_all [insertEntry]
  | cons e r ih =>
    obtain ⟨j, w⟩ := e
    simp only [insertEntry] at h
    split at h
    · simpa using h
    · rcases List.mem_cons.1 h with h | h <;> simp [h]
    · rcases List.mem_cons.1 h with h | h
      · simp [h]
      · rcases ih h with h | h <;> simp [h]

theorem ascending_insertEntry [Std.TransOrd κ] [Std.LawfulEqOrd κ] {k : κ} {v : β}
    {l : List (κ × β)} (h : l.Pairwise fun a b => compare a.1 b.1 = .lt) :
    (insertEntry k v l).Pairwise fun a b => compare a.1 b.1 = .lt := by
  induction l with
  | nil => simp [insertEntry]
  | cons e r ih =>
    obtain ⟨j, w⟩ := e
    obtain ⟨first, later⟩ := List.pairwise_cons.1 h
    simp only [insertEntry]
    split
    · rename_i hlt
      refine List.pairwise_cons.2 ⟨fun x hx => ?_, h⟩
      rcases List.mem_cons.1 hx with rfl | hx
      · exact hlt
      · exact Std.TransCmp.lt_trans hlt (first x hx)
    · rename_i heq
      cases Std.LawfulEqCmp.eq_of_compare heq
      exact List.pairwise_cons.2 ⟨first, later⟩
    · rename_i hgt
      refine List.pairwise_cons.2 ⟨fun x hx => ?_, ih later⟩
      rcases mem_insertEntry hx with rfl | hx
      · exact Std.OrientedCmp.lt_of_gt hgt
      · exact first x hx

variable [Std.TransOrd κ] [Std.LawfulEqOrd κ]

def insert (m : SortedMap κ β) (k : κ) (v : β) : SortedMap κ β :=
  ⟨insertEntry k v m.toList, ascending_insertEntry m.ascending⟩

/-- The map that the entries give when set in turn, so the last entry of a key counts. -/
def ofList (l : List (κ × β)) : SortedMap κ β :=
  l.foldl (fun m e => m.insert e.1 e.2) ∅

omit [Std.TransOrd κ] in
theorem get?_insertEntry (k j : κ) (v : β) (l : List (κ × β)) :
    ((insertEntry k v l).find? fun e => compare j e.1 == .eq).map (·.2) =
      if compare j k = .eq then some v
      else (l.find? fun e => compare j e.1 == .eq).map (·.2) := by
  induction l with
  | nil => by_cases h : compare j k = .eq <;> simp [insertEntry, h]
  | cons e r ih =>
    obtain ⟨i, w⟩ := e
    simp only [insertEntry]
    split
    · by_cases h : compare j k = .eq <;> simp [List.find?_cons, h]
    · rename_i heq
      cases Std.LawfulEqCmp.eq_of_compare heq
      by_cases h : compare j k = .eq <;> simp [h]
    · rename_i hgt
      by_cases hi : compare j i = .eq
      · cases Std.LawfulEqCmp.eq_of_compare hi
        have : compare j k ≠ .eq := by
          intro h
          cases Std.LawfulEqCmp.eq_of_compare h
          simp_all
        simp [this]
      · simp [hi, ih]

theorem get?_insert (m : SortedMap κ β) (k j : κ) (v : β) :
    (m.insert k v).get? j = if compare j k = .eq then some v else m.get? j :=
  get?_insertEntry k j v m.toList

end SortedMap

end SignedManifest
