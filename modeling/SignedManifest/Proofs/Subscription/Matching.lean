import Mathlib.Data.List.Enum
import Mathlib.Data.List.Sigma
import SignedManifest.Proofs.Subscription.Claiming

/-!
The matches of one group and of all groups. Each of the three passes is a claim over what the pass
before it left, so together they are one claim that stops only when a side is used up. Groups share
no place, hence no two matches share an incoming or an existing record.
-/
namespace SignedManifest.Subscription

section
variable {α β : Type} {first second : α → β → Bool}

theorem Claimed.followed {left : List α} {right : List β} {c d : Claims α β}
    (one : Claimed first left right c) (two : Claimed second c.unmatched c.free d) :
    Claimed (fun a b => first a b || second a b) left right
      ⟨c.pairs ++ d.pairs, d.unmatched, d.free⟩ where
  lefts := by
    simpa using (two.lefts.append_left (c.pairs.map Prod.fst)).trans one.lefts
  rights := by
    simpa using (two.rights.append_left (c.pairs.map Prod.snd)).trans one.rights
  suited := by
    intro p member
    rcases List.mem_append.mp member with early | late
    · simp [one.suited p early]
    · simp [two.suited p late]
  exhausted := by
    intro a waiting b free
    have waited := two.lefts.subset (List.mem_append_right _ waiting)
    have unused := two.rights.subset (List.mem_append_right _ free)
    simp [one.exhausted a waited b unused, two.exhausted a waiting b free]

end

theorem sameIdentity_iff {i e : Placed} :
    sameIdentity i e = true ↔ ∃ x, i.1.identity = some x ∧ e.1.identity = some x := by
  simp only [sameIdentity, Bool.and_eq_true, beq_iff_eq, Option.isSome_iff_exists]
  constructor
  · rintro ⟨⟨x, named⟩, same⟩
    exact ⟨x, named, same ▸ named⟩
  · rintro ⟨x, left, right⟩
    exact ⟨⟨x, left⟩, left.trans right.symm⟩

theorem byQuantity_perm (l : List Placed) : (byQuantity l).Perm l := List.mergeSort_perm l _

def rankClaims (incoming existing : List Placed) : Claims Placed Placed where
  pairs := (byQuantity incoming).zip (byQuantity existing)
  unmatched := (byQuantity incoming).drop (byQuantity existing).length
  free := (byQuantity existing).drop (byQuantity incoming).length

theorem zip_fst_append_drop {α β : Type} (l : List α) (r : List β) :
    (l.zip r).map Prod.fst ++ l.drop r.length = l := by
  induction l generalizing r with
  | nil => simp
  | cons a l ih => cases r <;> simp [ih]

theorem zip_snd_append_drop {α β : Type} (l : List α) (r : List β) :
    (l.zip r).map Prod.snd ++ r.drop l.length = r := by
  induction l generalizing r with
  | nil => simp
  | cons a l ih => cases r <;> simp [ih]

/- Ranking pairs whatever is left, so nothing is left on one side. -/
theorem rankClaims_claimed (incoming existing : List Placed) :
    Claimed (fun _ _ => true) incoming existing (rankClaims incoming existing) where
  lefts := by
    rw [rankClaims, zip_fst_append_drop]
    exact byQuantity_perm incoming
  rights := by
    rw [rankClaims, zip_snd_append_drop]
    exact byQuantity_perm existing
  suited := by simp
  exhausted := by
    intro a waiting b free
    have longer := List.length_pos_of_mem waiting
    have shorter := List.length_pos_of_mem free
    simp only [rankClaims, List.length_drop] at longer shorter
    omega

def earlyClaims (existing incoming : List Placed) : Claims Placed Placed :=
  let identity := claim sameIdentity incoming existing
  let quantity := claim sameQuantity identity.unmatched identity.free
  ⟨identity.pairs ++ quantity.pairs, quantity.unmatched, quantity.free⟩

def groupClaims (existing incoming : List Placed) : Claims Placed Placed :=
  let early := earlyClaims existing incoming
  let rank := rankClaims early.unmatched early.free
  ⟨early.pairs ++ rank.pairs, rank.unmatched, rank.free⟩

theorem earlyClaims_claimed (existing incoming : List Placed) :
    Claimed (fun i e => sameIdentity i e || sameQuantity i e) incoming existing
      (earlyClaims existing incoming) :=
  (claim_claimed incoming existing).followed (claim_claimed _ _)

theorem groupClaims_claimed (existing incoming : List Placed) :
    Claimed (fun _ _ => true) incoming existing (groupClaims existing incoming) := by
  have all := (earlyClaims_claimed existing incoming).followed (rankClaims_claimed _ _)
  simp only [Bool.or_true] at all
  exact all

theorem matchesOf_places (pass : MatchPass) (pairs : List (Placed × Placed)) :
    (matchesOf pass pairs).map (fun m => (m.incoming, m.existing)) =
      pairs.map fun p => (p.1.2, p.2.2) := by
  simp [matchesOf, Function.comp_def]

theorem groupMatches_places (existing incoming : List Placed) :
    (groupMatches existing incoming).map (fun m => (m.incoming, m.existing)) =
      (groupClaims existing incoming).pairs.map fun p => (p.1.2, p.2.2) := by
  simp [groupMatches, groupClaims, earlyClaims, rankClaims, matchesOf_places]

theorem groupMatches_incoming (existing incoming : List Placed) :
    (groupMatches existing incoming).map Match.incoming =
      ((groupClaims existing incoming).pairs.map Prod.fst).map Prod.snd := by
  simpa [Function.comp_def] using
    congrArg (List.map Prod.fst) (groupMatches_places existing incoming)

theorem groupMatches_existing (existing incoming : List Placed) :
    (groupMatches existing incoming).map Match.existing =
      ((groupClaims existing incoming).pairs.map Prod.snd).map Prod.snd := by
  simpa [Function.comp_def] using
    congrArg (List.map Prod.snd) (groupMatches_places existing incoming)

theorem groupMatches_incoming_nodup {existing incoming : List Placed}
    (nodup : (incoming.map Prod.snd).Nodup) :
    ((groupMatches existing incoming).map Match.incoming).Nodup := by
  have all := ((groupClaims_claimed existing incoming).lefts.map Prod.snd).nodup_iff.mpr nodup
  rw [List.map_append] at all
  rw [groupMatches_incoming]
  exact all.of_append_left

theorem groupMatches_existing_nodup {existing incoming : List Placed}
    (nodup : (existing.map Prod.snd).Nodup) :
    ((groupMatches existing incoming).map Match.existing).Nodup := by
  have all := ((groupClaims_claimed existing incoming).rights.map Prod.snd).nodup_iff.mpr nodup
  rw [List.map_append] at all
  rw [groupMatches_existing]
  exact all.of_append_left

theorem groupMatches_length (existing incoming : List Placed) :
    (groupMatches existing incoming).length = min existing.length incoming.length := by
  have spec := groupClaims_claimed existing incoming
  have size := congrArg List.length (groupMatches_places existing incoming)
  have lefts := spec.lefts.length_eq
  have rights := spec.rights.length_eq
  simp only [List.length_map, List.length_append] at size lefts rights
  have used : (groupClaims existing incoming).unmatched = [] ∨
      (groupClaims existing incoming).free = [] := by
    by_contra both
    push Not at both
    obtain ⟨a, waiting⟩ := List.exists_mem_of_ne_nil _ both.1
    obtain ⟨b, free⟩ := List.exists_mem_of_ne_nil _ both.2
    exact Bool.noConfusion (spec.exhausted a waiting b free)
  rcases used with none | none <;> simp only [none, List.length_nil] at lefts rights <;> omega

theorem mem_members {g : Option String} {ts : List Terms} {t : Terms} {n : Nat} :
    (t, n) ∈ members g ts ↔ ts[n]? = some t ∧ t.group = g := by
  simp [members, List.mk_mem_zipIdx_iff_getElem?]

theorem members_length (g : Option String) (ts : List Terms) :
    (members g ts).length = ts.countP fun t => t.group == g := by
  have lists := congrArg (List.countP fun t => t.group == g) (List.zipIdx_map_fst 0 ts)
  rw [← lists, List.countP_map, members, List.countP_eq_length_filter]
  rfl

theorem members_nodup (g : Option String) (ts : List Terms) :
    ((members g ts).map Prod.snd).Nodup :=
  (List.nodup_zipIdx_map_snd ts).sublist (List.filter_sublist.map Prod.snd)

theorem match_members {g : Option String} {existing incoming : List Terms} {m : Match}
    (found : m ∈ groupMatches (members g existing) (members g incoming)) :
    (∃ t, incoming[m.incoming]? = some t ∧ t.group = g) ∧
      ∃ t, existing[m.existing]? = some t ∧ t.group = g := by
  have spec := groupClaims_claimed (members g existing) (members g incoming)
  have placed := List.mem_map_of_mem (f := fun m => (m.incoming, m.existing)) found
  rw [groupMatches_places] at placed
  obtain ⟨⟨⟨t, i⟩, ⟨u, k⟩⟩, pair, places⟩ := List.mem_map.mp placed
  obtain ⟨rfl, rfl⟩ := Prod.mk.inj places
  have left := spec.lefts.subset (List.mem_append_left _ (List.mem_map_of_mem pair))
  have right := spec.rights.subset (List.mem_append_left _ (List.mem_map_of_mem pair))
  exact ⟨⟨t, mem_members.mp left⟩, ⟨u, mem_members.mp right⟩⟩

theorem mem_allMatches {existing incoming : List Terms} {m : Match} :
    m ∈ allMatches existing incoming ↔
      ∃ g, m ∈ groupMatches (members g existing) (members g incoming) := by
  simp only [allMatches, List.mem_flatMap]
  constructor
  · rintro ⟨g, _, found⟩
    exact ⟨g, found⟩
  · rintro ⟨g, found⟩
    obtain ⟨⟨t, place, rfl⟩, _⟩ := match_members found
    exact ⟨t.group, by simpa using ⟨t, List.mem_of_getElem? place, rfl⟩, found⟩

theorem allMatches_places {existing incoming : List Terms} {m : Match}
    (found : m ∈ allMatches existing incoming) :
    ∃ t u, incoming[m.incoming]? = some t ∧ existing[m.existing]? = some u ∧
      t.group = u.group := by
  obtain ⟨g, inside⟩ := mem_allMatches.mp found
  obtain ⟨⟨t, left, tg⟩, ⟨u, right, ug⟩⟩ := match_members inside
  exact ⟨t, u, left, right, tg.trans ug.symm⟩

theorem mem_allMatches_of_incoming {existing incoming : List Terms} {m : Match} {t : Terms}
    (place : incoming[m.incoming]? = some t) :
    m ∈ allMatches existing incoming ↔
      m ∈ groupMatches (members t.group existing) (members t.group incoming) := by
  constructor
  · intro found
    obtain ⟨g, inside⟩ := mem_allMatches.mp found
    obtain ⟨⟨u, same, rfl⟩, _⟩ := match_members inside
    rw [place] at same
    cases same
    exact inside
  · intro inside
    exact mem_allMatches.mpr ⟨_, inside⟩

theorem allMatches_incoming_unique {existing incoming : List Terms} {m n : Match}
    (hm : m ∈ allMatches existing incoming) (hn : n ∈ allMatches existing incoming)
    (same : m.incoming = n.incoming) : m = n := by
  obtain ⟨t, _, place, _, _⟩ := allMatches_places hm
  have inM := (mem_allMatches_of_incoming place).mp hm
  have inN := (mem_allMatches_of_incoming (same ▸ place)).mp hn
  exact List.inj_on_of_nodup_map (groupMatches_incoming_nodup (members_nodup _ _)) inM inN same

theorem allMatches_existing_unique {existing incoming : List Terms} {m n : Match}
    (hm : m ∈ allMatches existing incoming) (hn : n ∈ allMatches existing incoming)
    (same : m.existing = n.existing) : m = n := by
  obtain ⟨g, inM⟩ := mem_allMatches.mp hm
  obtain ⟨h, inN⟩ := mem_allMatches.mp hn
  obtain ⟨_, ⟨t, left, tg⟩⟩ := match_members inM
  obtain ⟨_, ⟨u, right, uh⟩⟩ := match_members inN
  rw [same, right] at left
  cases left
  obtain rfl : g = h := tg.symm.trans uh
  exact List.inj_on_of_nodup_map (groupMatches_existing_nodup (members_nodup _ _)) inM inN same

theorem matchAt?_some {existing incoming : List Terms} {i : Nat} {m : Match} :
    matchAt? (allMatches existing incoming) i = some m ↔
      m ∈ allMatches existing incoming ∧ m.incoming = i := by
  constructor
  · intro found
    exact ⟨List.mem_of_find?_eq_some found, by simpa using List.find?_some found⟩
  · rintro ⟨member, rfl⟩
    cases found : matchAt? (allMatches existing incoming) m.incoming with
    | none => simpa using List.find?_eq_none.mp found m member
    | some n =>
      have inside := List.mem_of_find?_eq_some found
      have place : n.incoming = m.incoming := by simpa using List.find?_some found
      rw [allMatches_incoming_unique inside member place]

theorem matchAt?_none {found : List Match} {i : Nat} :
    matchAt? found i = none ↔ ∀ m ∈ found, m.incoming ≠ i := by
  simp [matchAt?]

end SignedManifest.Subscription
