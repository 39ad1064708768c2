import SignedManifest.Proofs.Subscription.Resolving

/-!
Groups that do not see each other. Matching a group commutes with every renumbering of places, so a
group is matched in a large batch as it is matched alone, and whatever happens in other groups does
not show in its resolutions.
-/
namespace SignedManifest.Subscription

/-! ### Passes over renamed elements -/

section
variable {α β γ δ : Type}

theorem takeFirst?_map {p : δ → Bool} {q : β → Bool} {g : β → δ} (same : ∀ b, p (g b) = q b)
    (l : List β) :
    takeFirst? p (l.map g) = (takeFirst? q l).map fun (b, others) => (g b, others.map g) := by
  induction l with
  | nil => rfl
  | cons e r ih =>
    simp only [List.map_cons, takeFirst?, same]
    split
    · rfl
    · rw [ih]
      cases takeFirst? q r <;> rfl

def Claims.map (f : α → γ) (g : β → δ) (c : Claims α β) : Claims γ δ where
  pairs := c.pairs.map (Prod.map f g)
  unmatched := c.unmatched.map f
  free := c.free.map g

theorem claim_map {suits : α → β → Bool} {suits' : γ → δ → Bool} (f : α → γ) (g : β → δ)
    (same : ∀ a b, suits' (f a) (g b) = suits a b) (left : List α) (right : List β) :
    claim suits' (left.map f) (right.map g) = (claim suits left right).map f g := by
  induction left generalizing right with
  | nil => rfl
  | cons a left ih =>
    simp only [List.map_cons, claim, takeFirst?_map (same a)]
    cases takeFirst? (suits a) right with
    | none => simp [ih, Claims.map]
    | some taken => simp [ih, Claims.map]

end

/-! ### Renumbering -/

def Placed.renumber (f : Nat → Nat) (t : Placed) : Placed := (t.1, f t.2)

def Match.renumber (f h : Nat → Nat) (m : Match) : Match := ⟨f m.incoming, h m.existing, m.pass⟩

theorem byQuantity_renumber (f : Nat → Nat) (l : List Placed) :
    byQuantity (l.map (Placed.renumber f)) = (byQuantity l).map (Placed.renumber f) :=
  (List.map_mergeSort (f := Placed.renumber f) fun _ _ _ _ => rfl).symm

theorem matchesOf_renumber (f h : Nat → Nat) (pass : MatchPass) (pairs : List (Placed × Placed)) :
    matchesOf pass (pairs.map (Prod.map (Placed.renumber f) (Placed.renumber h))) =
      (matchesOf pass pairs).map (Match.renumber f h) := by
  simp only [matchesOf, List.map_map]
  rfl

/- No pass looks at a place, so the matches of renumbered records are the renumbered matches. -/
theorem groupMatches_renumber (f h : Nat → Nat) (existing incoming : List Placed) :
    groupMatches (existing.map (Placed.renumber h)) (incoming.map (Placed.renumber f)) =
      (groupMatches existing incoming).map (Match.renumber f h) := by
  have apart (suits : Placed → Placed → Bool)
      (blind : ∀ a b, suits (a.renumber f) (b.renumber h) = suits a b) (left right : List Placed) :
      claim suits (left.map (Placed.renumber f)) (right.map (Placed.renumber h)) =
        (claim suits left right).map (Placed.renumber f) (Placed.renumber h) :=
    claim_map _ _ blind left right
  have identity := apart sameIdentity (fun _ _ => rfl)
  have quantity := apart sameQuantity (fun _ _ => rfl)
  simp only [groupMatches, identity, Claims.map, quantity, byQuantity_renumber, List.zip_map,
    matchesOf_renumber, List.map_append]

/-! ### The places of a group -/

section
variable {α : Type} {p : α → Bool}

theorem zipIdx_filter_fst (p : α → Bool) (l : List α) (n : Nat) :
    ((l.zipIdx n).filter fun t => p t.1).map Prod.fst = l.filter p := by
  induction l generalizing n with
  | nil => rfl
  | cons a r ih => by_cases h : p a <;> simp [h, ih]

def placeAmong (p : α → Bool) (l : List α) (k : Nat) : Nat :=
  ((l.zipIdx.filter fun t => p t.1).map Prod.snd)[k]?.getD 0

/- The elements with a property, each with its place in the whole list, are those of the shorter list
   with their places translated. -/
theorem zipIdx_filter (p : α → Bool) (l : List α) :
    (l.zipIdx.filter fun t => p t.1) =
      (l.filter p).zipIdx.map fun t => (t.1, placeAmong p l t.2) := by
  refine List.ext_getElem? fun k => ?_
  rw [← zipIdx_filter_fst p l 0, List.getElem?_map, List.getElem?_zipIdx, List.getElem?_map]
  cases found : (l.zipIdx.filter fun t => p t.1)[k]? <;> simp [placeAmong, found]

theorem placeAmong_inj {l : List α} {j k : Nat} (hj : j < (l.filter p).length)
    (hk : k < (l.filter p).length) (same : placeAmong p l j = placeAmong p l k) : j = k := by
  have size : ((l.zipIdx.filter fun t => p t.1).map Prod.snd).length = (l.filter p).length := by
    rw [← zipIdx_filter_fst p l 0, List.length_map, List.length_map]
  have nodup : ((l.zipIdx.filter fun t => p t.1).map Prod.snd).Nodup :=
    (List.nodup_zipIdx_map_snd l).sublist (List.filter_sublist.map Prod.snd)
  rw [placeAmong, placeAmong, List.getElem?_eq_getElem (size ▸ hj),
    List.getElem?_eq_getElem (size ▸ hk)] at same
  exact (nodup.getElem_inj_iff).mp same

theorem getElem?_placeAmong {l : List α} {k : Nat} {a : α} (found : (l.filter p)[k]? = some a) :
    l[placeAmong p l k]? = some a := by
  have member : (a, placeAmong p l k) ∈ l.zipIdx.filter fun t => p t.1 := by
    rw [zipIdx_filter]
    exact List.mem_map.mpr ⟨(a, k), List.mk_mem_zipIdx_iff_getElem?.mpr found, rfl⟩
  exact List.mk_mem_zipIdx_iff_getElem?.mp (List.mem_filter.mp member).1

theorem placeAmong_count {l : List α} {i : Nat} {a : α} (found : l[i]? = some a) (has : p a) :
    (l.filter p)[((l.take i).filter p).length]? = some a ∧
      placeAmong p l ((l.take i).filter p).length = i := by
  obtain ⟨bound, rfl⟩ := List.getElem?_eq_some_iff.mp found
  have split : l = l.take i ++ l[i] :: l.drop (i + 1) := by simp
  have first : (l.filter p)[((l.take i).filter p).length]? = some l[i] := by
    conv_lhs => arg 1; rw [split, List.filter_append, List.filter_cons_of_pos has]
    simp
  refine ⟨first, ?_⟩
  have places : (l.zipIdx.filter fun t => p t.1)[((l.take i).filter p).length]? = some (l[i], i) := by
    have size : ((l.take i).filter p).length =
        ((l.take i).zipIdx.filter fun t => p t.1).length := by
      rw [← zipIdx_filter_fst p (l.take i) 0, List.length_map]
    conv_lhs => arg 1; rw [split, List.zipIdx_append, List.filter_append, List.zipIdx_cons,
      List.filter_cons_of_pos (by exact has)]
    rw [size, List.getElem?_append_right (Nat.le_refl _)]
    simp [Nat.min_eq_left (Nat.le_of_lt bound)]
  simp [placeAmong, places]

end

theorem members_renumber (g : Option String) (ts : List Terms) :
    members g ts = (members g (ts.filter fun t => t.group == g)).map
      (Placed.renumber (placeAmong (fun t => t.group == g) ts)) := by
  have alone : members g (ts.filter fun t => t.group == g) =
      (ts.filter fun t => t.group == g).zipIdx := by
    refine List.filter_eq_self.mpr fun (t, n) member => ?_
    have found := List.mem_of_getElem? (List.mk_mem_zipIdx_iff_getElem?.mp member)
    exact (List.mem_filter.mp found).2
  rw [alone]
  exact zipIdx_filter (fun t : Terms => t.group == g) ts

/-! ### One group of a batch -/

def ofGroup (g : Option String) (l : List Record) : List Record := l.filter fun r => r.group == g

def groupResolutions (g : Option String) (existing incoming : List Record) : List Resolution :=
  ((incoming.zip (reconcile existing incoming).resolutions).filter fun x => x.1.group == g).map
    Prod.snd

variable {g : Option String} {existing incoming : List Record}

theorem ofGroup_terms (g : Option String) (l : List Record) :
    (ofGroup g l).map Record.toTerms = (l.map Record.toTerms).filter fun t => t.group == g := by
  rw [ofGroup, List.filter_map]
  rfl

theorem placeAmong_terms (g : Option String) (l : List Record) (k : Nat) :
    placeAmong (fun t => t.group == g) (l.map Record.toTerms) k =
      placeAmong (fun r : Record => r.group == g) l k := by
  have places : ((l.map Record.toTerms).zipIdx.filter fun t => t.1.group == g).map Prod.snd =
      (l.zipIdx.filter fun t => t.1.group == g).map Prod.snd := by
    rw [List.zipIdx_map, List.filter_map, List.map_map]
    rfl
  rw [placeAmong, placeAmong, places]

theorem mem_matched_ofGroup {i : Nat} {r : Record} {m : Match} (place : incoming[i]? = some r)
    (inside : r.group = g) (here : m.incoming = i) :
    m ∈ matched existing incoming ↔
      ∃ n ∈ matched (ofGroup g existing) (ofGroup g incoming),
        m = n.renumber (placeAmong (fun r => r.group == g) incoming)
          (placeAmong (fun r => r.group == g) existing) := by
  have placed : (incoming.map Record.toTerms)[m.incoming]? = some r.toTerms := by
    simp [here, place]
  have whole := @mem_allMatches_of_incoming (existing.map Record.toTerms) _ m _ placed
  rw [inside, members_renumber g (existing.map _), members_renumber g (incoming.map _),
    groupMatches_renumber, List.mem_map] at whole
  simp only [matched, whole, ofGroup_terms]
  refine exists_congr fun n => ?_
  constructor
  · rintro ⟨found, same⟩
    refine ⟨mem_allMatches.mpr ⟨g, found⟩, ?_⟩
    rw [← same]
    simp [Match.renumber, placeAmong_terms]
  · rintro ⟨found, same⟩
    constructor
    · obtain ⟨g', found⟩ := mem_allMatches.mp found
      obtain ⟨⟨t, member, rfl⟩, _⟩ := match_members found
      have : t.group = g := by simpa using (List.mem_filter.mp (List.mem_of_getElem? member)).2
      exact this ▸ found
    · rw [same]
      simp [Match.renumber, placeAmong_terms]

theorem resolution_ofGroup {k : Nat} {r : Record} (found : (ofGroup g incoming)[k]? = some r) :
    (reconcile existing incoming).resolutions[placeAmong (fun r => r.group == g) incoming k]? =
      (reconcile (ofGroup g existing) (ofGroup g incoming)).resolutions[k]? := by
  have place := getElem?_placeAmong found
  have inside : r.group = g := by
    simpa using (List.mem_filter.mp (List.mem_of_getElem? found)).2
  cases decided : matchAt? (matched (ofGroup g existing) (ofGroup g incoming)) k with
  | some n =>
    obtain ⟨alone, rfl⟩ := matchAt?_some.mp decided
    obtain ⟨_, e, _, source, _⟩ := matched_records alone
    have whole : n.renumber _ _ ∈ matched existing incoming :=
      (mem_matched_ofGroup place inside rfl).mpr ⟨n, alone, rfl⟩
    rw [resolution_matched alone source]
    exact resolution_matched whole (getElem?_placeAmong source)
  | none =>
    rw [resolution_unmatched found (matchAt?_none.mp decided)]
    refine resolution_unmatched place fun m whole here => ?_
    obtain ⟨n, alone, rfl⟩ := (mem_matched_ofGroup place inside here).mp whole
    obtain ⟨_, _, other, _, _⟩ := matched_records alone
    -- places are translated injectively, so the match would be one of the record in its group
    have same := placeAmong_inj (List.getElem?_eq_some_iff.mp other).1
      (List.getElem?_eq_some_iff.mp found).1 here
    exact matchAt?_none.mp decided n alone same

theorem zip_resolutions (existing incoming : List Record) :
    incoming.zip (reconcile existing incoming).resolutions = incoming.zipIdx.map fun t =>
      (t.1, resolve existing t.1 (matchAt? (matched existing incoming) t.2)) := by
  calc incoming.zip (reconcile existing incoming).resolutions
      = (incoming.zipIdx.map Prod.fst).zip (reconcile existing incoming).resolutions := by
        rw [List.zipIdx_map_fst]
    _ = _ := List.zip_map'

theorem groupResolutions_eq (g : Option String) (existing incoming : List Record) :
    groupResolutions g existing incoming =
      (reconcile (ofGroup g existing) (ofGroup g incoming)).resolutions := by
  rw [groupResolutions, zip_resolutions, List.filter_map, List.map_map]
  refine List.ext_getElem? fun k => ?_
  have listed := zipIdx_filter (fun r : Record => r.group == g) incoming
  rw [List.getElem?_map]
  simp only [Function.comp_def]
  rw [listed, List.getElem?_map, List.getElem?_zipIdx]
  cases found : (ofGroup g incoming)[k]? with
  | none =>
    have beyond := List.getElem?_eq_none_iff.mp found
    rw [← reconcile_length (ofGroup g existing)] at beyond
    rw [ofGroup] at found
    simp [found, List.getElem?_eq_none_iff.mpr beyond]
  | some r =>
    rw [← resolution_ofGroup found, reconcile_getElem?, getElem?_placeAmong found]
    rw [ofGroup] at found
    simp [found]

/- Each record is resolved as it is, at its place there, in the batch that holds its group alone. So
   nothing that is done to other groups, on either side, changes the resolutions of a group. -/
theorem groups_resolve_alone (g : Option String) (existing incoming : List Record) :
    (∀ i r, incoming[i]? = some r → r.group = g →
      (ofGroup g incoming)[(ofGroup g (incoming.take i)).length]? = some r ∧
      (reconcile existing incoming).resolutions[i]? =
        (reconcile (ofGroup g existing) (ofGroup g incoming)).resolutions[
          (ofGroup g (incoming.take i)).length]?) ∧
    ∀ existing' incoming', ofGroup g existing' = ofGroup g existing →
      ofGroup g incoming' = ofGroup g incoming →
      groupResolutions g existing' incoming' = groupResolutions g existing incoming := by
  constructor
  · intro i r place inside
    obtain ⟨found, back⟩ := placeAmong_count (p := fun r : Record => r.group == g) place
      (by simpa using inside)
    have alone := @resolution_ofGroup g existing incoming _ r found
    rw [back] at alone
    exact ⟨found, alone⟩
  · intro existing' incoming' same same'
    rw [groupResolutions_eq, groupResolutions_eq, same, same']

/- Two groups interleaved on both sides; what is left for the rank pass is paired within the group. -/
theorem groups_resolve_alone_interleaved :
    let existing := [Record.ofPool "a" "p" 7, .ofPool "b" "q" 9, .ofPool "c" "p" 5]
    let incoming := [Record.ofPool "1" "q" 9, .ofPool "2" "p" 5, .ofPool "3" "q" 7, .ofPool "4" "p" 9]
    incoming[3]? = some (.ofPool "4" "p" 9) ∧
      (reconcile existing incoming).resolutions[3]? = some (.inherited "a" .rank) := by
  intro existing incoming
  refine ⟨rfl, ?_⟩
  have alone := ((groups_resolve_alone (some "p") existing incoming).1 3 _ rfl rfl).2
  rw [alone]
  decide +kernel

end SignedManifest.Subscription
