import Mathlib.Data.List.Nodup
import Mathlib.Data.List.Perm.Basic
import SignedManifest.SortedMap

/-!
A sorted map is what looking its keys up finds. Nothing else is in it, and two maps that answer
alike are one map, entry by entry.
-/
namespace SignedManifest.SortedMap

variable {κ β : Type} [Ord κ] [Std.LawfulEqOrd κ]

theorem mem_ascending {l : List (κ × β)} (ascending : l.Pairwise fun a b => compare a.1 b.1 = .lt)
    {k : κ} {v : β} :
    (k, v) ∈ l ↔ (l.find? fun e => compare k e.1 == .eq).map (·.2) = some v := by
  induction l with
  | nil => simp
  | cons e r ih =>
    obtain ⟨first, later⟩ := List.pairwise_cons.1 ascending
    by_cases same : compare k e.1 = .eq
    · obtain rfl : k = e.1 := Std.LawfulEqCmp.eq_of_compare same
      have absent : (e.1, v) ∉ r := fun member => by
        have := first _ member
        simp at this
      simp [absent, Prod.ext_iff, eq_comm]
    · have other : (k, v) ≠ e := by
        rintro rfl
        exact same Std.ReflCmp.compare_self
      simp [same, other, ih later]

theorem mem_toList_iff {m : SortedMap κ β} {k : κ} {v : β} :
    (k, v) ∈ m.toList ↔ m.get? k = some v :=
  mem_ascending m.ascending

theorem keys_nodup (m : SortedMap κ β) : m.keys.Nodup := by
  refine List.pairwise_map.mpr (m.ascending.imp fun {a b} before same => ?_)
  simp [same] at before

theorem toList_nodup (m : SortedMap κ β) : m.toList.Nodup :=
  m.keys_nodup.of_map

variable [Std.TransOrd κ]

theorem get?_erase (m : SortedMap κ β) (k j : κ) :
    (m.erase k).get? j = if compare j k = .eq then none else m.get? j := by
  refine Option.ext fun v => ?_
  rw [← mem_toList_iff]
  by_cases same : compare j k = .eq
  · obtain rfl : j = k := Std.LawfulEqCmp.eq_of_compare same
    simp [erase, filter]
  · have apart : compare k j ≠ .eq := fun h => same (Std.OrientedCmp.eq_symm h)
    simp [erase, filter, mem_toList_iff, same, apart]

theorem ext_get? {m n : SortedMap κ β} (same : ∀ k v, m.get? k = some v ↔ n.get? k = some v) :
    m = n := by
  have listed : m.toList.Perm n.toList :=
    (List.perm_ext_iff_of_nodup m.toList_nodup n.toList_nodup).mpr fun (k, v) => by
      rw [mem_toList_iff, mem_toList_iff, same]
  refine SortedMap.ext (listed.eq_of_pairwise (fun a b _ _ before behind => ?_) m.ascending
    n.ascending)
  rw [Std.OrientedCmp.gt_of_lt before] at behind
  cases behind

theorem mem_insert {m : SortedMap κ β} {k j : κ} {v w : β} :
    (j, w) ∈ (m.insert k v).toList ↔ j = k ∧ w = v ∨ j ≠ k ∧ (j, w) ∈ m.toList := by
  rw [mem_toList_iff, get?_insert, mem_toList_iff]
  by_cases same : j = k
  · simp [same, eq_comm]
  · have apart : compare j k ≠ .eq := fun h => same (Std.LawfulEqCmp.eq_of_compare h)
    simp [same, apart]

theorem mem_ofList {l : List (κ × β)} (distinct : (l.map Prod.fst).Nodup) {e : κ × β} :
    e ∈ (ofList l).toList ↔ e ∈ l := by
  suffices general : ∀ m : SortedMap κ β, (∀ e ∈ l, e.1 ∉ m.toList.map Prod.fst) →
      (e ∈ (l.foldl (fun m e => m.insert e.1 e.2) m).toList ↔ e ∈ m.toList ∨ e ∈ l) by
    have none : (∅ : SortedMap κ β).toList = [] := rfl
    simpa [ofList, none] using general ∅ (by simp [none])
  induction l with
  | nil => simp
  | cons a l ih =>
    intro m fresh
    rw [List.map_cons, List.nodup_cons] at distinct
    have later : ∀ b ∈ l, b.1 ∉ (m.insert a.1 a.2).toList.map Prod.fst := by
      intro b member there
      obtain ⟨⟨k, v⟩, inside, rfl⟩ := List.mem_map.mp there
      rcases mem_insert.mp inside with ⟨same, _⟩ | ⟨_, old⟩
      · exact distinct.1 (same ▸ List.mem_map_of_mem member)
      · exact fresh b (by simp [member]) (List.mem_map.mpr ⟨_, old, rfl⟩)
    obtain ⟨k, v⟩ := e
    rw [List.foldl_cons, ih distinct.2 _ later, mem_insert, List.mem_cons]
    have other : (k, v) ∈ m.toList → k ≠ a.1 := by
      rintro there rfl
      exact fresh a (by simp) (List.mem_map.mpr ⟨_, there, rfl⟩)
    constructor
    · rintro ((⟨rfl, rfl⟩ | ⟨_, old⟩) | member)
      · exact .inr (.inl rfl)
      · exact .inl old
      · exact .inr (.inr member)
    · rintro (old | rfl | member)
      · exact .inl (.inr ⟨other old, old⟩)
      · exact .inl (.inl ⟨rfl, rfl⟩)
      · exact .inr member

theorem ofList_perm {l : List (κ × β)} (distinct : (l.map Prod.fst).Nodup) :
    (ofList l).toList.Perm l :=
  (List.perm_ext_iff_of_nodup (toList_nodup _) distinct.of_map).mpr fun _ => mem_ofList distinct

theorem ofList_eq {l : List (κ × β)} {m : SortedMap κ β} (perm : l.Perm m.toList) :
    ofList l = m := by
  have distinct : (l.map Prod.fst).Nodup := (perm.map Prod.fst).nodup_iff.mpr m.keys_nodup
  refine ext_get? fun k v => ?_
  rw [← mem_toList_iff, ← mem_toList_iff, mem_ofList distinct, perm.mem_iff]

theorem toList_ofList_map {γ : Type} (f : β → γ) (l : List (κ × β)) :
    (ofList (l.map fun e => (e.1, f e.2))).toList =
      (ofList l).toList.map fun e => (e.1, f e.2) := by
  have step (k : κ) (v : β) (l : List (κ × β)) :
      insertEntry k (f v) (l.map fun e => (e.1, f e.2)) =
        (insertEntry k v l).map fun e => (e.1, f e.2) := by
    induction l with
    | nil => rfl
    | cons e l ih =>
      simp only [List.map_cons, insertEntry]
      split <;> simp [ih]
  suffices general : ∀ (m : SortedMap κ β) (n : SortedMap κ γ),
      n.toList = m.toList.map (fun e => (e.1, f e.2)) →
      ((l.map fun e => (e.1, f e.2)).foldl (fun n e => n.insert e.1 e.2) n).toList =
        (l.foldl (fun m e => m.insert e.1 e.2) m).toList.map fun e => (e.1, f e.2) from
    general ∅ ∅ rfl
  induction l with
  | nil => exact fun m n same => same
  | cons e l ih =>
    intro m n same
    rw [List.map_cons, List.foldl_cons, List.foldl_cons]
    refine ih _ _ ?_
    change insertEntry e.1 (f e.2) n.toList = (insertEntry e.1 e.2 m.toList).map _
    rw [same, step]

end SignedManifest.SortedMap
