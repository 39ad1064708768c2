import Mathlib.Data.List.Nodup
import SignedManifest.Subscription.Matching

/-!
What one greedy pass hands out and what it leaves. Elements are counted with repetition, so equal
elements on either side need no separate treatment.
-/
namespace SignedManifest.Subscription

section
variable {α β : Type} {suits : α → β → Bool}

theorem takeFirst?_skips {p : β → Bool} {pre post : List β} {b : β}
    (skipped : ∀ x ∈ pre, p x = false) (hit : p b = true) :
    takeFirst? p (pre ++ b :: post) = some (b, pre ++ post) := by
  induction pre with
  | nil => simp [takeFirst?, hit]
  | cons x pre ih =>
    have miss : p x = false := skipped x (by simp)
    have later := ih fun y hy => skipped y (by simp [hy])
    simp [takeFirst?, miss, later]

theorem takeFirst?_none {p : β → Bool} {l : List β} :
    takeFirst? p l = none ↔ ∀ x ∈ l, p x = false := by
  induction l with
  | nil => simp [takeFirst?]
  | cons x l ih => cases hit : p x <;> simp [takeFirst?, hit, ih]

theorem takeFirst?_some {p : β → Bool} {l others : List β} {b : β}
    (taken : takeFirst? p l = some (b, others)) :
    ∃ pre post, l = pre ++ b :: post ∧ others = pre ++ post ∧ p b = true ∧
      ∀ x ∈ pre, p x = false := by
  induction l generalizing others with
  | nil => simp [takeFirst?] at taken
  | cons x l ih =>
    simp only [takeFirst?] at taken
    split at taken
    · rename_i hit
      obtain ⟨rfl, rfl⟩ := Prod.mk.inj (Option.some.inj taken)
      exact ⟨[], l, rfl, rfl, hit, by simp⟩
    · rename_i miss
      obtain ⟨⟨c, rest⟩, later, eq⟩ := Option.map_eq_some_iff.mp taken
      obtain ⟨rfl, rfl⟩ := Prod.mk.inj eq
      obtain ⟨pre, post, split, left, hit, skipped⟩ := ih later
      refine ⟨x :: pre, post, by simp [split], by simp [left], hit, ?_⟩
      intro y member
      rcases List.mem_cons.mp member with rfl | member
      · simpa using miss
      · exact skipped y member

theorem takeFirst?_perm {p : β → Bool} {l others : List β} {b : β}
    (taken : takeFirst? p l = some (b, others)) : (b :: others).Perm l := by
  obtain ⟨pre, post, rfl, rfl, _, _⟩ := takeFirst?_some taken
  exact List.perm_middle.symm

/-- All that a pass guarantees: it loses and repeats nothing on either side, it pairs only what
suits, and what it leaves on the left suits nothing that it leaves on the right. -/
structure Claimed (suits : α → β → Bool) (left : List α) (right : List β) (c : Claims α β) :
    Prop where
  lefts : (c.pairs.map Prod.fst ++ c.unmatched).Perm left
  rights : (c.pairs.map Prod.snd ++ c.free).Perm right
  suited : ∀ p ∈ c.pairs, suits p.1 p.2 = true
  exhausted : ∀ a ∈ c.unmatched, ∀ b ∈ c.free, suits a b = false

theorem claim_claimed (left : List α) (right : List β) :
    Claimed suits left right (claim suits left right) := by
  induction left generalizing right with
  | nil => exact ⟨by simp [claim], by simp [claim], by simp [claim], by simp [claim]⟩
  | cons a left ih =>
    simp only [claim]
    split
    · rename_i b others taken
      have rest := ih others
      obtain ⟨_, _, _, _, hit, _⟩ := takeFirst?_some taken
      exact {
        lefts := rest.lefts.cons a
        rights := (rest.rights.cons b).trans (takeFirst?_perm taken)
        suited := by
          intro p member
          rcases List.mem_cons.mp member with rfl | member
          · exact hit
          · exact rest.suited p member
        exhausted := rest.exhausted }
    · rename_i missed
      have rest := ih right
      exact {
        lefts := List.perm_middle.trans (rest.lefts.cons a)
        rights := rest.rights
        suited := rest.suited
        exhausted := by
          -- what is free at the end was free when the head found nothing
          intro x member b free
          rcases List.mem_cons.mp member with rfl | member
          · exact takeFirst?_none.mp missed b (rest.rights.subset (by simp [free]))
          · exact rest.exhausted x member b free }

/- Where two elements suit each other and nothing else, no order of service parts them. -/
theorem claim_pairs_sole {left : List α} {right : List β} {a : α} {b : β} (nodup : left.Nodup)
    (ha : a ∈ left) (hb : b ∈ right) (suit : suits a b = true)
    (only_b : ∀ y ∈ right, suits a y = true → y = b)
    (only_a : ∀ x ∈ left, suits x b = true → x = a) :
    (a, b) ∈ (claim suits left right).pairs := by
  have spec : Claimed suits left right _ := claim_claimed left right
  have split := spec.lefts.nodup_iff.mpr nodup
  have placed := spec.lefts.symm.subset ha
  rcases List.mem_append.mp placed with paired | waiting
  · obtain ⟨⟨x, y⟩, member, rfl⟩ := List.mem_map.mp paired
    have inside : y ∈ right := spec.rights.subset (by
      exact List.mem_append_left _ (List.mem_map_of_mem member))
    have same : y = b := only_b y inside (spec.suited _ member)
    exact same ▸ member
  · rcases List.mem_append.mp (spec.rights.symm.subset hb) with taken | free
    · obtain ⟨⟨x, y⟩, member, rfl⟩ := List.mem_map.mp taken
      have first := List.mem_map_of_mem (f := Prod.fst) member
      have same : x = a := only_a x (spec.lefts.subset (List.mem_append_left _ first))
        (spec.suited _ member)
      subst same
      exact False.elim (List.disjoint_of_nodup_append split first waiting)
    · rw [spec.exhausted a waiting b free] at suit
      contradiction

/- A pass over a list and itself. The elements that suit nothing pile up before the rest, and the
   others find themselves first, since equal ones before them have been taken. -/
theorem claim_self {suits : α → α → Bool}
    (closed : ∀ a b, suits a b = true → suits a a = true ∧ suits b b = true)
    (pile l : List α) (idle : ∀ x ∈ pile, suits x x = false) :
    claim suits l (pile ++ l) =
      ⟨(l.filter fun a => suits a a).map fun a => (a, a), l.filter fun a => !suits a a,
        pile ++ l.filter fun a => !suits a a⟩ := by
  induction l generalizing pile with
  | nil => simp [claim]
  | cons a l ih =>
    by_cases own : suits a a = true
    · -- nothing on the pile suits, so the head takes itself and the pile stays as it is
      have skipped : ∀ x ∈ pile, suits a x = false := by
        intro x member
        by_contra suit
        have := (closed a x (by simpa using suit)).2
        simp [idle x member] at this
      simp [claim, takeFirst?_skips skipped own, ih pile idle, own]
    · -- the head suits nothing and goes onto the pile
      have missed : takeFirst? (suits a) (pile ++ a :: l) = none := by
        refine takeFirst?_none.mpr fun x _ => ?_
        by_contra suit
        exact own (closed a x (by simpa using suit)).1
      have more : ∀ x ∈ pile ++ [a], suits x x = false := by
        intro x member
        rcases List.mem_append.mp member with member | member
        · exact idle x member
        · simpa [List.mem_singleton.mp member] using own
      have rest := ih (pile ++ [a]) more
      simp only [List.append_assoc, List.singleton_append] at rest
      simp [claim, missed, rest, own]

end

end SignedManifest.Subscription
