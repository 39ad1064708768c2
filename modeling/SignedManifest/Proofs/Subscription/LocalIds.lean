import SignedManifest.Proofs.Subscription.Passes

/-!
Two runs that differ in local ids alone. Terms decide which record continues which, so one decision on
places describes both runs; the ids that it hands out are read off the existing records of each run
afterwards. Ids may repeat on either side, or occur on both.
-/
namespace SignedManifest.Subscription

variable {existing existing' incoming incoming' : List Record}

/-- A decision on places that a run follows: the existing record that each incoming one continues, with
the pass that finds it, and none for those that are new. -/
structure Follows (existing incoming : List Record) (decided : Nat → Option (Nat × MatchPass)) :
    Prop where
  inherited : ∀ i k pass, decided i = some (k, pass) → ∃ e, existing[k]? = some e ∧
    (reconcile existing incoming).resolutions[i]? = some (.inherited e.id pass)
  kept : ∀ i r, decided i = none → incoming[i]? = some r →
    (reconcile existing incoming).resolutions[i]? = some (.new r.id)

def decisionOf (found : List Match) (i : Nat) : Option (Nat × MatchPass) :=
  (matchAt? found i).map fun m => (m.existing, m.pass)

theorem follows_decisionOf (existing incoming : List Record) :
    Follows existing incoming (decisionOf (matched existing incoming)) where
  inherited i k pass decided := by
    obtain ⟨m, found, same⟩ := Option.map_eq_some_iff.mp decided
    obtain ⟨rfl, rfl⟩ := Prod.mk.inj same
    obtain ⟨chosen, rfl⟩ := matchAt?_some.mp found
    exact (inherits_iff.mpr chosen).resolved
  kept i r decided place :=
    resolution_unmatched place (matchAt?_none.mp (Option.map_eq_none_iff.mp decided))

theorem Follows.decided {decided : Nat → Option (Nat × MatchPass)}
    (follows : Follows existing incoming decided) {i : Nat} {id : String} {pass : MatchPass}
    (inherits : (reconcile existing incoming).resolutions[i]? = some (.inherited id pass)) :
    ∃ k e, decided i = some (k, pass) ∧ existing[k]? = some e ∧ e.id = id := by
  cases choice : decided i with
  | none =>
    obtain ⟨m, _, found, rfl, _⟩ := match_of_inherited inherits
    obtain ⟨r, _, place, _⟩ := matched_records found
    rw [follows.kept m.incoming r choice place] at inherits
    cases inherits
  | some chosen =>
    obtain ⟨k, p⟩ := chosen
    obtain ⟨e, source, resolved⟩ := follows.inherited i k p choice
    rw [resolved] at inherits
    cases inherits
    exact ⟨k, e, rfl, source, rfl⟩

theorem Follows.inherited_ids {decided : Nat → Option (Nat × MatchPass)}
    (follows : Follows existing incoming decided) (follows' : Follows existing incoming' decided)
    {i : Nat} {id : String} {pass : MatchPass}
    (inherits : (reconcile existing incoming).resolutions[i]? = some (.inherited id pass)) :
    (reconcile existing incoming').resolutions[i]? = some (.inherited id pass) := by
  obtain ⟨k, e, choice, source, rfl⟩ := follows.decided inherits
  obtain ⟨e', source', resolved⟩ := follows'.inherited i k pass choice
  obtain rfl : e = e' := Option.some.inj (source.symm.trans source')
  exact resolved

theorem exists_follows (same : existing'.map Record.toTerms = existing.map Record.toTerms)
    (same' : incoming'.map Record.toTerms = incoming.map Record.toTerms) :
    ∃ decided, Follows existing incoming decided ∧ Follows existing' incoming' decided := by
  have unseen : matched existing' incoming' = matched existing incoming := by
    rw [matched, matched, same, same']
  exact ⟨_, follows_decisionOf existing incoming, unseen ▸ follows_decisionOf existing' incoming'⟩

theorem settleAll_terms (fresh : Nat → String) (drafts : List Draft) :
    (Draft.settleAll fresh drafts).map Record.toTerms = drafts.map Draft.toTerms := by
  calc (Draft.settleAll fresh drafts).map Record.toTerms
      = (drafts.zipIdx.map Prod.fst).map Draft.toTerms := by
        rw [Draft.settleAll, List.map_map, List.map_map]
        rfl
    _ = drafts.map Draft.toTerms := by rw [List.zipIdx_map_fst]

/- Batches and histories that differ in local ids alone are resolved by one decision on places. So a
   batch that is read again, its missing ids drawn anew, takes over the same ids at the same places. -/
theorem local_ids_decide_nothing
    (same : existing'.map Record.toTerms = existing.map Record.toTerms)
    (same' : incoming'.map Record.toTerms = incoming.map Record.toTerms) :
    (∃ decided, Follows existing incoming decided ∧ Follows existing' incoming' decided) ∧
    ∀ (drafts : List Draft) (fresh fresh' : Nat → String) (i : Nat) (id : String) (pass : MatchPass),
      (reconcile existing (Draft.settleAll fresh drafts)).resolutions[i]? =
          some (.inherited id pass) ↔
        (reconcile existing (Draft.settleAll fresh' drafts)).resolutions[i]? =
          some (.inherited id pass) := by
  refine ⟨exists_follows same same', fun drafts fresh fresh' i id pass => ?_⟩
  have terms : (Draft.settleAll fresh' drafts).map Record.toTerms =
      (Draft.settleAll fresh drafts).map Record.toTerms := by
    rw [settleAll_terms, settleAll_terms]
  have held : existing.map Record.toTerms = existing.map Record.toTerms := rfl
  obtain ⟨decided, follows, follows'⟩ := exists_follows held terms
  exact ⟨follows.inherited_ids follows', follows'.inherited_ids follows⟩

/- Repeated ids on both sides, and ids that stand on both; every pass takes part and one record is new.
   The third record continues the existing one of its quantity whatever either is called. -/
theorem local_ids_decide_nothing_clashing :
    let existing := [(Record.ofPool "a" "p" 5).withUpstream "e" "c", .ofPool "a" "p" 7,
      .ofPool "b" "p" 4]
    let existing' := [(Record.ofPool "x" "p" 5).withUpstream "e" "c", .ofPool "3" "p" 7,
      .ofPool "x" "p" 4]
    let incoming := [Record.ofPool "a" "p" 1, (Record.ofPool "b" "p" 7).withUpstream "e" "c",
      .ofPool "b" "p" 7, .ofPool "a" "p" 3]
    let incoming' := [Record.ofPool "1" "p" 1, (Record.ofPool "2" "p" 7).withUpstream "e" "c",
      .ofPool "3" "p" 7, .ofPool "x" "p" 3]
    existing'.map Record.toTerms = existing.map Record.toTerms ∧
      incoming'.map Record.toTerms = incoming.map Record.toTerms ∧
      (∃ decided, Follows existing incoming decided ∧ Follows existing' incoming' decided) ∧
      (reconcile existing incoming).resolutions[2]? = some (.inherited "a" .quantity) ∧
      (reconcile existing' incoming').resolutions[2]? = some (.inherited "3" .quantity) := by
  intro existing existing' incoming incoming'
  have same : existing'.map Record.toTerms = existing.map Record.toTerms := by decide
  have same' : incoming'.map Record.toTerms = incoming.map Record.toTerms := by decide
  refine ⟨same, same', (local_ids_decide_nothing same same').1, ?_, ?_⟩
  · decide +kernel
  · decide +kernel

end SignedManifest.Subscription
