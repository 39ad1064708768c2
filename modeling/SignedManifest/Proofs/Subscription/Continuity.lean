import Mathlib.Data.List.NodupEquivFin
import SignedManifest.Proofs.Subscription.Ranking

/-!
More history and fewer competitors. What a pass leaves waiting can only shrink, and what it leaves free
can only grow, when existing records are added and incoming ones are taken away. Since this holds of
each pass from what the one before it leaves, no record that takes over an id loses its predecessor for
good: it may continue another one, by another pass, but it does not become new.
-/
namespace SignedManifest.Subscription

/-! ### One group -/

section
variable {existing existing' incoming incoming' : List Placed}

/-- One outcome of a pass leaves no more waiting and no less free than another. -/
structure Claims.Eases (c' c : Claims Placed Placed) : Prop where
  waiting : c'.unmatched.Sublist c.unmatched
  free : c.free.Sublist c'.free

theorem claim_eases {κ : Type} [DecidableEq κ] {suits : Placed → Placed → Bool}
    {key : Placed → Option κ} (byKey : ByKey suits key) (more : existing.Sublist existing')
    (fewer : incoming'.Sublist incoming) (ordered : incoming.Pairwise Before)
    (ordered' : existing'.Pairwise Before) :
    (claim suits incoming' existing').Eases (claim suits incoming existing) where
  waiting := Leftover.mono fewer more ordered (claim_unmatched_leftover byKey _ _)
    (claim_unmatched_leftover byKey _ _)
  free := Leftover.mono more fewer ordered' (claim_free_leftover byKey _ _)
    (claim_free_leftover byKey _ _)

theorem early_eases (more : existing.Sublist existing') (fewer : incoming'.Sublist incoming)
    (ordered : incoming.Pairwise Before) (ordered' : existing'.Pairwise Before) :
    (earlyClaims existing' incoming').Eases (earlyClaims existing incoming) := by
  have identity := claim_eases sameIdentity_byKey more fewer ordered ordered'
  have quantity := claim_eases sameQuantity_byKey identity.free identity.waiting
    (ordered.sublist (claim_unmatched_sublist _ _)) (ordered'.sublist (claim_free_sublist _ _))
  exact ⟨quantity.waiting, quantity.free⟩

theorem byQuantity_sublist {l l' : List Placed} (fewer : l'.Sublist l)
    (ordered : l.Pairwise Before) : (byQuantity l').Sublist (byQuantity l) := by
  refine sublist_of_subset (byQuantity_ranking (ordered.sublist fewer)).ordered
    (byQuantity_ranking ordered).ordered fun a member => ?_
  exact (byQuantity_perm l).symm.subset (fewer.subset ((byQuantity_perm l').subset member))

/- The ranks of those that wait only rise, and there are only more to be joined with. -/
theorem group_unmatched_sublist (more : existing.Sublist existing')
    (fewer : incoming'.Sublist incoming) (ordered : incoming.Pairwise Before)
    (ordered' : existing'.Pairwise Before) :
    (groupClaims existing' incoming').unmatched.Sublist
      (groupClaims existing incoming).unmatched := by
  have early := early_eases more fewer ordered ordered'
  have inOrder : (earlyClaims existing incoming).unmatched.Pairwise Before :=
    ordered.sublist ((claim_unmatched_sublist _ _).trans (claim_unmatched_sublist _ _))
  have ranked := byQuantity_sublist early.waiting inOrder
  have room : (byQuantity (earlyClaims existing incoming).free).length ≤
      (byQuantity (earlyClaims existing' incoming').free).length := by
    rw [(byQuantity_perm _).length_eq, (byQuantity_perm _).length_eq]
    exact early.free.length_le
  exact (List.drop_sublist_drop_left _ room).trans (ranked.drop _)

end

/-! ### Places in the longer batch -/

theorem renumber_id (l : List Placed) : l.map (Placed.renumber id) = l := List.map_id l

theorem groupClaims_renumber (f h : Nat → Nat) (existing incoming : List Placed) :
    (groupClaims (existing.map (Placed.renumber h)) (incoming.map (Placed.renumber f))).unmatched =
      (groupClaims existing incoming).unmatched.map (Placed.renumber f) := by
  have apart (suits : Placed → Placed → Bool)
      (blind : ∀ a b, suits (a.renumber f) (b.renumber h) = suits a b) (left right : List Placed) :
      claim suits (left.map (Placed.renumber f)) (right.map (Placed.renumber h)) =
        (claim suits left right).map (Placed.renumber f) (Placed.renumber h) :=
    claim_map _ _ blind left right
  have identity := apart sameIdentity (fun _ _ => rfl)
  have quantity := apart sameQuantity (fun _ _ => rfl)
  simp only [groupClaims, earlyClaims, rankClaims, identity, Claims.map, quantity,
    byQuantity_renumber, List.length_map, List.map_drop]

theorem members_embedded {g : Option String} {ts ts' : List Terms} {place : Nat → Nat}
    (rising : ∀ i j, i < j → j < ts'.length → place i < place j)
    (same : ∀ j t, ts'[j]? = some t → ts[place j]? = some t) :
    ((members g ts').map (Placed.renumber place)).Sublist (members g ts) := by
  refine sublist_of_subset ?_ (members_pairwise g ts) ?_
  · rw [List.pairwise_map]
    refine (members_pairwise g ts').imp_of_mem fun {a b} _ member before => ?_
    obtain ⟨there, _⟩ := mem_members.mp (show (b.1, b.2) ∈ members g ts' from member)
    exact rising a.2 b.2 before (List.getElem?_eq_some_iff.mp there).1
  · intro a member
    obtain ⟨⟨t, j⟩, inside, rfl⟩ := List.mem_map.mp member
    obtain ⟨there, group⟩ := mem_members.mp inside
    exact mem_members.mpr ⟨same j t there, group⟩

theorem members_sublist {g : Option String} {ts ts' : List Terms} (more : ts.Sublist ts') :
    ∃ place : Nat → Nat, ((members g ts).map (Placed.renumber place)).Sublist (members g ts') := by
  obtain ⟨place, same⟩ := List.sublist_iff_exists_orderEmbedding_getElem?_eq.mp more
  refine ⟨place, members_embedded (fun i j before _ => place.strictMono before) fun j t there => ?_⟩
  rw [← same]
  exact there

def placeBy {m n : Nat} (f : Fin m ↪o Fin n) (i : Nat) : Nat := if h : i < m then f ⟨i, h⟩ else 0

theorem placeBy_val {m n : Nat} (f : Fin m ↪o Fin n) (j : Fin m) : placeBy f j = f j := by
  simp [placeBy]

section
variable {existing existing' incoming incoming' : List Record}

theorem incoming_embedded {g : Option String} (f : Fin incoming'.length ↪o Fin incoming.length)
    (same : ∀ j, incoming'[j] = incoming[f j]) :
    ((membersOf g incoming').map (Placed.renumber (placeBy f))).Sublist (membersOf g incoming) := by
  refine members_embedded (fun i j before bound => ?_) fun j t there => ?_
  · rw [List.length_map] at bound
    have low := placeBy_val f ⟨i, Nat.lt_trans before bound⟩
    have high := placeBy_val f ⟨j, bound⟩
    rw [low, high]
    exact f.strictMono before
  · rw [List.getElem?_map] at there ⊢
    obtain ⟨r, found, rfl⟩ := Option.map_eq_some_iff.mp there
    obtain ⟨bound, rfl⟩ := List.getElem?_eq_some_iff.mp found
    rw [placeBy_val f ⟨j, bound⟩, List.getElem?_eq_getElem (f ⟨j, bound⟩).isLt, Option.map_some]
    exact congrArg (fun r => some r.toTerms) (same ⟨j, bound⟩).symm

theorem keepsOwn_of_more (more : existing.Sublist existing')
    (f : Fin incoming'.length ↪o Fin incoming.length) (same : ∀ j, incoming'[j] = incoming[f j])
    (j : Fin incoming'.length) (new : KeepsOwn existing' incoming' j) :
    KeepsOwn existing incoming (f j) := by
  let g := incoming'[j].group
  have member : (incoming'[j].toTerms, j.val) ∈ membersOf g incoming' :=
    mem_membersOf (List.getElem?_eq_getElem j.isLt)
  have late := mem_unmatched_iff.mpr ⟨member, new⟩
  obtain ⟨place, embedded⟩ := members_sublist (g := g) (more.map Record.toTerms)
  have shrinks := group_unmatched_sublist embedded (incoming_embedded (g := g) f same)
    (members_pairwise g _) (members_pairwise g _)
  -- the record waits under its place in the longer batch, with either history
  have moved : (incoming'[j].toTerms, (f j).val) ∈ (groupClaims (membersOf g existing')
      ((membersOf g incoming').map (Placed.renumber (placeBy f)))).unmatched := by
    have renumbered := groupClaims_renumber (placeBy f) id (membersOf g existing')
      (membersOf g incoming')
    rw [renumber_id] at renumbered
    rw [renumbered]
    exact List.mem_map.mpr ⟨_, late, by rw [Placed.renumber, placeBy_val]⟩
  have older := groupClaims_renumber id place (membersOf g existing) (membersOf g incoming)
  rw [renumber_id, renumber_id] at older
  exact (mem_unmatched_iff.mp (older ▸ shrinks.subset moved)).2

/- Whatever the place of the shorter batch in the longer one, a record of it that takes over an id in
   the longer batch takes over one in the shorter, also when the history has grown. -/
theorem inherited_stays_inherited (more : existing.Sublist existing')
    (f : Fin incoming'.length ↪o Fin incoming.length) (same : ∀ j, incoming'[j] = incoming[f j])
    (j : Fin incoming'.length) (inherits : (passAt existing incoming (f j)).isSome = true) :
    (passAt existing' incoming' j).isSome = true := by
  by_contra new
  rw [Bool.not_eq_true, Option.isSome_eq_false_iff, Option.isNone_iff_eq_none] at new
  have kept := (passAt_eq_none_iff (List.getElem?_eq_getElem j.isLt)).mp new
  have none := (passAt_eq_none_iff (List.getElem?_eq_getElem (f j).isLt)).mpr
    (keepsOwn_of_more more f same j kept)
  rw [none] at inherits
  contradiction

/- With an older record of its own quantity to continue, and without a smaller competitor, the record
   leaves the one that it had by rank. -/
theorem inherited_stays_inherited_otherwise :
    let existing := [Record.ofPool "a" "p" 8]
    let existing' := [Record.ofPool "a" "p" 8, .ofPool "b" "p" 9]
    let incoming := [Record.ofPool "1" "p" 3, .ofPool "2" "p" 9]
    let incoming' := [Record.ofPool "2" "p" 9]
    existing.Sublist existing' ∧ passAt existing incoming 1 = some .rank ∧
      (passAt existing' incoming' 0).isSome = true ∧
      Inherits existing' incoming' .quantity 0 1 := by
  intro existing existing' incoming incoming'
  have more : existing.Sublist existing' := List.sublist_append_left _ _
  have ranked : passAt existing incoming 1 = some .rank := by cbv
  refine ⟨more, ranked, ?_, inherits_iff.mpr (by decide +kernel)⟩
  exact @inherited_stays_inherited existing existing' incoming incoming' more (Fin.succOrderEmb 1)
    (by decide) 0 (Option.isSome_of_eq_some ranked)

end

end SignedManifest.Subscription
