import SignedManifest.Proofs.Subscription.Grouping
import SignedManifest.Proofs.Subscription.Occurrences

/-!
The passes of one group, seen from the records. A match in the result is a pair that its pass makes
among the members of the group, and what a pass finds to work on are the members that no match of the
passes before it takes, in the order of the input.
-/
namespace SignedManifest.Subscription

/-! ### Matches seen from the batch -/

structure Inherits (existing incoming : List Record) (pass : MatchPass) (i k : Nat) : Prop where
  chosen : ⟨i, k, pass⟩ ∈ matched existing incoming
  resolved : ∃ e, existing[k]? = some e ∧
    (reconcile existing incoming).resolutions[i]? = some (.inherited e.id pass)

def passAt (existing incoming : List Record) (i : Nat) : Option MatchPass :=
  (reconcile existing incoming).resolutions[i]?.bind Resolution.pass?

def KeepsOwn (existing incoming : List Record) (i : Nat) : Prop :=
  ∃ r, incoming[i]? = some r ∧
    (reconcile existing incoming).resolutions[i]? = some (.new r.id)

variable {existing incoming : List Record}

theorem inherits_iff {pass : MatchPass} {i k : Nat} :
    Inherits existing incoming pass i k ↔ ⟨i, k, pass⟩ ∈ matched existing incoming := by
  constructor
  · exact Inherits.chosen
  · intro chosen
    obtain ⟨_, e, _, source, _⟩ := matched_records chosen
    exact ⟨chosen, e, source, resolution_matched chosen source⟩

theorem passAt_iff {pass : MatchPass} {i : Nat} :
    passAt existing incoming i = some pass ↔ ∃ k, Inherits existing incoming pass i k := by
  constructor
  · intro passed
    obtain ⟨resolution, at_i, same⟩ := Option.bind_eq_some_iff.mp passed
    cases resolution with
    | new id => cases same
    | inherited id p =>
      cases same
      obtain ⟨m, _, found, rfl, rfl, _, _⟩ := match_of_inherited at_i
      exact ⟨m.existing, inherits_iff.mpr found⟩
  · rintro ⟨k, _, e, _, resolved⟩
    simp [passAt, resolved, Resolution.pass?]

theorem keepsOwn_iff {i : Nat} {r : Record} (place : incoming[i]? = some r) :
    KeepsOwn existing incoming i ↔ ∀ pass k, ¬ Inherits existing incoming pass i k := by
  constructor
  · rintro ⟨_, _, new⟩ pass k ⟨_, _, _, resolved⟩
    rw [new] at resolved
    cases resolved
  · intro free
    refine ⟨r, place, resolution_unmatched place ?_⟩
    rintro ⟨_, k, pass⟩ found rfl
    exact free pass k (inherits_iff.mpr found)

theorem passAt_eq_none_iff {i : Nat} {r : Record} (place : incoming[i]? = some r) :
    passAt existing incoming i = none ↔ KeepsOwn existing incoming i := by
  rw [keepsOwn_iff place, Option.eq_none_iff_forall_ne_some]
  exact forall_congr' fun pass => by rw [Ne, passAt_iff, not_exists]

/-! ### The passes of one group -/

def identityKey (a : Placed) : Option (String × String) := a.1.identity

theorem sameIdentity_byKey : ByKey sameIdentity identityKey := fun _ _ => sameIdentity_iff

def quantityOf (a : Placed) : Int64 := a.1.quantity

theorem sameQuantity_byKey : ByKey sameQuantity fun a => some (quantityOf a) := by
  intro i e
  simp only [sameQuantity, beq_iff_eq, Option.some.injEq, exists_eq_left']
  exact eq_comm

def identityClaims (existing incoming : List Placed) : Claims Placed Placed :=
  claim sameIdentity incoming existing

def quantityClaims (existing incoming : List Placed) : Claims Placed Placed :=
  claim sameQuantity (identityClaims existing incoming).unmatched
    (identityClaims existing incoming).free

def pairsOf (existing incoming : List Placed) : MatchPass → List (Placed × Placed)
  | .identity => (identityClaims existing incoming).pairs
  | .quantity => (quantityClaims existing incoming).pairs
  | .rank => (byQuantity (quantityClaims existing incoming).unmatched).zip
      (byQuantity (quantityClaims existing incoming).free)

theorem groupClaims_pairs (existing incoming : List Placed) :
    (groupClaims existing incoming).pairs = pairsOf existing incoming .identity ++
      pairsOf existing incoming .quantity ++ pairsOf existing incoming .rank := rfl

theorem pairsOf_sublist (existing incoming : List Placed) (pass : MatchPass) :
    (pairsOf existing incoming pass).Sublist (groupClaims existing incoming).pairs := by
  rw [groupClaims_pairs]
  cases pass with
  | identity => exact (List.sublist_append_left _ _).trans (List.sublist_append_left _ _)
  | quantity => exact (List.sublist_append_right _ _).trans (List.sublist_append_left _ _)
  | rank => exact List.sublist_append_right _ _

theorem pair_members {existing incoming : List Placed} {pass : MatchPass} {p : Placed × Placed}
    (pair : p ∈ pairsOf existing incoming pass) : p.1 ∈ incoming ∧ p.2 ∈ existing := by
  have spec := groupClaims_claimed existing incoming
  have inside := (pairsOf_sublist existing incoming pass).subset pair
  exact ⟨spec.lefts.subset (List.mem_append_left _ (List.mem_map_of_mem inside)),
    spec.rights.subset (List.mem_append_left _ (List.mem_map_of_mem inside))⟩

theorem mem_groupMatches {existing incoming : List Placed} {pass : MatchPass} {i k : Nat} :
    ⟨i, k, pass⟩ ∈ groupMatches existing incoming ↔
      ∃ t u, ((t, i), (u, k)) ∈ pairsOf existing incoming pass := by
  have parts : groupMatches existing incoming =
      matchesOf .identity (pairsOf existing incoming .identity) ++
        matchesOf .quantity (pairsOf existing incoming .quantity) ++
        matchesOf .rank (pairsOf existing incoming .rank) := rfl
  rw [parts]
  cases pass <;> simp [matchesOf]

abbrev membersOf (g : Option String) (l : List Record) : List Placed :=
  members g (l.map Record.toTerms)

theorem mem_membersOf {i : Nat} {r : Record} {l : List Record} (place : l[i]? = some r) :
    (r.toTerms, i) ∈ membersOf r.group l :=
  mem_members.mpr ⟨by simp [place], rfl⟩

variable {g : Option String} {pass : MatchPass} {i k : Nat} {t u : Terms}

theorem inherits_iff_incoming (member : (t, i) ∈ membersOf g incoming) :
    Inherits existing incoming pass i k ↔
      ∃ u, ((t, i), (u, k)) ∈ pairsOf (membersOf g existing) (membersOf g incoming) pass := by
  obtain ⟨place, rfl⟩ := mem_members.mp member
  rw [inherits_iff, matched, mem_allMatches_of_incoming place, mem_groupMatches]
  constructor
  · rintro ⟨s, u, pair⟩
    obtain ⟨here, _⟩ := mem_members.mp (pair_members pair).1
    obtain rfl : t = s := Option.some.inj (place.symm.trans here)
    exact ⟨u, pair⟩
  · rintro ⟨u, pair⟩
    exact ⟨t, u, pair⟩

theorem inherits_iff_existing (member : (u, k) ∈ membersOf g existing) :
    Inherits existing incoming pass i k ↔
      ∃ t, ((t, i), (u, k)) ∈ pairsOf (membersOf g existing) (membersOf g incoming) pass := by
  obtain ⟨place, rfl⟩ := mem_members.mp member
  constructor
  · intro inherits
    obtain ⟨t, s, came, source, same⟩ := allMatches_places inherits.chosen
    obtain rfl : u = s := Option.some.inj (place.symm.trans source)
    have inside : (t, i) ∈ membersOf u.group incoming := mem_members.mpr ⟨came, same⟩
    obtain ⟨s, pair⟩ := (inherits_iff_incoming inside).mp inherits
    obtain ⟨here, _⟩ := mem_members.mp (pair_members pair).2
    obtain rfl : u = s := Option.some.inj (place.symm.trans here)
    exact ⟨t, pair⟩
  · rintro ⟨t, pair⟩
    exact (inherits_iff_incoming (pair_members pair).1).mpr ⟨u, pair⟩

/-! ### What is left after some passes -/

/-- The places that no match of some passes takes, on one side of the matches. -/
def leftAfter (side : Match → Nat) (passes : List MatchPass) (found : List Match)
    (l : List Placed) : List Placed :=
  l.filter fun t => !found.any fun m => passes.contains m.pass && side m == t.2

def heldAfter (passes : List MatchPass) (g : Option String) (existing incoming : List Record) :
    List Placed :=
  leftAfter Match.existing passes (matched existing incoming) (membersOf g existing)

def waitingAfter (passes : List MatchPass) (g : Option String) (existing incoming : List Record) :
    List Placed :=
  leftAfter Match.incoming passes (matched existing incoming) (membersOf g incoming)

section
variable {passes : List MatchPass}

theorem mem_leftAfter {side : Match → Nat} {found : List Match} {l : List Placed} {a : Placed} :
    a ∈ leftAfter side passes found l ↔
      a ∈ l ∧ ∀ m ∈ found, m.pass ∈ passes → side m ≠ a.2 := by
  simp [leftAfter]

theorem mem_heldAfter :
    (u, k) ∈ heldAfter passes g existing incoming ↔ (u, k) ∈ membersOf g existing ∧
      ∀ pass ∈ passes, ∀ i, ¬ Inherits existing incoming pass i k := by
  simp only [heldAfter, mem_leftAfter, inherits_iff]
  refine and_congr_right fun _ => ⟨?_, ?_⟩
  · intro free pass among i found
    exact free _ found among rfl
  · rintro free ⟨i, _, pass⟩ found among rfl
    exact free pass among i found

theorem mem_waitingAfter :
    (t, i) ∈ waitingAfter passes g existing incoming ↔ (t, i) ∈ membersOf g incoming ∧
      ∀ pass ∈ passes, ∀ k, ¬ Inherits existing incoming pass i k := by
  simp only [waitingAfter, mem_leftAfter, inherits_iff]
  refine and_congr_right fun _ => ⟨?_, ?_⟩
  · intro free pass among k found
    exact free _ found among rfl
  · rintro free ⟨_, k, pass⟩ found among rfl
    exact free pass among k found

/-- The first passes of a group taken together. -/
structure Stage (passes : List MatchPass) (existing incoming : List Placed)
    (c : Claims Placed Placed) : Prop where
  pairs : ∀ p, p ∈ c.pairs ↔ ∃ pass ∈ passes, p ∈ pairsOf existing incoming pass
  lefts : (c.pairs.map Prod.fst ++ c.unmatched).Perm incoming
  rights : (c.pairs.map Prod.snd ++ c.free).Perm existing

theorem identity_stage (existing incoming : List Placed) :
    Stage [.identity] existing incoming (identityClaims existing incoming) where
  pairs := by simp [pairsOf]
  lefts := (claim_claimed incoming existing).lefts
  rights := (claim_claimed incoming existing).rights

theorem early_stage (existing incoming : List Placed) :
    Stage [.identity, .quantity] existing incoming (earlyClaims existing incoming) where
  pairs := by simp [earlyClaims, pairsOf, identityClaims, quantityClaims]
  lefts := (earlyClaims_claimed existing incoming).lefts
  rights := (earlyClaims_claimed existing incoming).rights

theorem whole_stage (existing incoming : List Placed) :
    Stage [.identity, .quantity, .rank] existing incoming (groupClaims existing incoming) where
  pairs := by simp [groupClaims_pairs]
  lefts := (groupClaims_claimed existing incoming).lefts
  rights := (groupClaims_claimed existing incoming).rights

theorem mem_rest_iff {α : Type} {l used rest : List α} {a : α} (parts : (used ++ rest).Perm l)
    (nodup : l.Nodup) (member : a ∈ l) : a ∈ rest ↔ a ∉ used := by
  have apart := List.disjoint_of_nodup_append (parts.nodup_iff.mpr nodup)
  constructor
  · intro left inUse
    exact apart inUse left
  · exact (List.mem_append.mp (parts.symm.subset member)).resolve_left

def Before (a b : Placed) : Prop := a.2 < b.2

instance : Std.Asymm Before := ⟨fun _ _ => Nat.lt_asymm⟩

theorem members_pairwise (g : Option String) (ts : List Terms) :
    (members g ts).Pairwise Before := by
  have places : (ts.zipIdx.map Prod.snd).Pairwise (· < ·) := by
    rw [List.zipIdx_map_snd]
    exact List.pairwise_lt_range'
  exact (List.pairwise_map.mp places).filter _

variable {c : Claims Placed Placed}

theorem Stage.mem_unmatched
    (stage : Stage passes (membersOf g existing) (membersOf g incoming) c) :
    (t, i) ∈ c.unmatched ↔ (t, i) ∈ membersOf g incoming ∧
      ∀ pass ∈ passes, ∀ k, ¬ Inherits existing incoming pass i k := by
  have inside : (t, i) ∈ c.unmatched → (t, i) ∈ membersOf g incoming := fun waiting =>
    stage.lefts.subset (List.mem_append_right _ waiting)
  rw [← and_iff_right_of_imp inside]
  refine and_congr_right fun member => ?_
  rw [mem_rest_iff stage.lefts (members_pairwise g _).nodup member]
  simp only [List.mem_map, stage.pairs, Prod.exists, exists_and_right, exists_eq_right,
    inherits_iff_incoming member]
  push Not
  constructor
  · intro free pass among k u
    exact free u k pass among
  · intro free u k pass among
    exact free pass among k u

theorem Stage.mem_free
    (stage : Stage passes (membersOf g existing) (membersOf g incoming) c) :
    (u, k) ∈ c.free ↔ (u, k) ∈ membersOf g existing ∧
      ∀ pass ∈ passes, ∀ i, ¬ Inherits existing incoming pass i k := by
  have inside : (u, k) ∈ c.free → (u, k) ∈ membersOf g existing := fun free =>
    stage.rights.subset (List.mem_append_right _ free)
  rw [← and_iff_right_of_imp inside]
  refine and_congr_right fun member => ?_
  rw [mem_rest_iff stage.rights (members_pairwise g _).nodup member]
  simp only [List.mem_map, stage.pairs, Prod.exists, inherits_iff_existing member]
  constructor
  · rintro free pass among i ⟨t, pair⟩
    exact free ⟨t, i, u, k, ⟨pass, among, pair⟩, rfl⟩
  · rintro free ⟨t, i, _, _, ⟨pass, among, pair⟩, same⟩
    cases same
    exact free pass among i ⟨t, pair⟩

theorem waitingAfter_eq
    (stage : Stage passes (membersOf g existing) (membersOf g incoming) c)
    (order : c.unmatched.Sublist (membersOf g incoming)) :
    waitingAfter passes g existing incoming = c.unmatched := by
  have ordered := members_pairwise g (incoming.map Record.toTerms)
  refine (ordered.filter _).eq_of_mem_iff (ordered.sublist order) fun _ => ?_
  exact mem_waitingAfter.trans stage.mem_unmatched.symm

theorem heldAfter_eq
    (stage : Stage passes (membersOf g existing) (membersOf g incoming) c)
    (order : c.free.Sublist (membersOf g existing)) :
    heldAfter passes g existing incoming = c.free := by
  have ordered := members_pairwise g (existing.map Record.toTerms)
  refine (ordered.filter _).eq_of_mem_iff (ordered.sublist order) fun _ => ?_
  exact mem_heldAfter.trans stage.mem_free.symm

end

theorem MatchPass.mem_all (pass : MatchPass) : pass ∈ [.identity, .quantity, .rank] := by
  cases pass <;> simp

theorem mem_unmatched_iff :
    (t, i) ∈ (groupClaims (membersOf g existing) (membersOf g incoming)).unmatched ↔
      (t, i) ∈ membersOf g incoming ∧ KeepsOwn existing incoming i := by
  rw [(whole_stage _ _).mem_unmatched]
  refine and_congr_right fun member => ?_
  obtain ⟨place, _⟩ := mem_members.mp member
  obtain ⟨r, there, _⟩ := Option.map_eq_some_iff.mp (List.getElem?_map .. ▸ place)
  simp only [keepsOwn_iff there, MatchPass.mem_all, true_imp_iff]

theorem mem_free_iff :
    (u, k) ∈ (groupClaims (membersOf g existing) (membersOf g incoming)).free ↔
      (u, k) ∈ membersOf g existing ∧ ∀ pass i, ¬ Inherits existing incoming pass i k := by
  rw [(whole_stage _ _).mem_free]
  simp only [MatchPass.mem_all, true_imp_iff]

theorem waitingAfter_identity (g : Option String) (existing incoming : List Record) :
    waitingAfter [.identity] g existing incoming =
      (identityClaims (membersOf g existing) (membersOf g incoming)).unmatched :=
  waitingAfter_eq (identity_stage _ _) (claim_unmatched_sublist _ _)

theorem heldAfter_identity (g : Option String) (existing incoming : List Record) :
    heldAfter [.identity] g existing incoming =
      (identityClaims (membersOf g existing) (membersOf g incoming)).free :=
  heldAfter_eq (identity_stage _ _) (claim_free_sublist _ _)

theorem waitingAfter_early (g : Option String) (existing incoming : List Record) :
    waitingAfter [.identity, .quantity] g existing incoming =
      (earlyClaims (membersOf g existing) (membersOf g incoming)).unmatched :=
  waitingAfter_eq (early_stage _ _)
    ((claim_unmatched_sublist _ _).trans (claim_unmatched_sublist _ _))

theorem heldAfter_early (g : Option String) (existing incoming : List Record) :
    heldAfter [.identity, .quantity] g existing incoming =
      (earlyClaims (membersOf g existing) (membersOf g incoming)).free :=
  heldAfter_eq (early_stage _ _) ((claim_free_sublist _ _).trans (claim_free_sublist _ _))

theorem leftAfter_pairwise {side : Match → Nat} {passes : List MatchPass} {found : List Match}
    {ts : List Terms} : (leftAfter side passes found (members g ts)).Pairwise Before :=
  (members_pairwise g ts).filter _

end SignedManifest.Subscription
