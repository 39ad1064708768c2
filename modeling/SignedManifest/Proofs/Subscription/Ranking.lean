import Mathlib.Data.List.Permutation
import SignedManifest.Proofs.Subscription.Passes

/-!
The last pass. Both sides stand in the order of rank, the larger quantity first and equal ones in the
order of the input, and are joined place by place. So larger records get larger ones, and what is left
over on either side is no larger than anything that was joined.
-/
namespace SignedManifest.Subscription

/-- The larger quantity, or the same one and earlier in the input. -/
def Outranks (a b : Placed) : Prop :=
  quantityOf b < quantityOf a ∨ quantityOf a = quantityOf b ∧ a.2 < b.2

instance : DecidableRel Outranks := fun _ _ => inferInstanceAs (Decidable (_ ∨ _))

instance : Std.Asymm Outranks where
  asymm a b := by
    rintro (larger | ⟨same, before⟩) (smaller | ⟨same', after⟩)
    · exact Int64.lt_asymm larger smaller
    · exact Int64.lt_irrefl (same' ▸ larger)
    · exact Int64.lt_irrefl (same ▸ smaller)
    · exact Nat.lt_asymm before after

theorem Outranks.le {a b : Placed} (outranks : Outranks a b) : quantityOf b ≤ quantityOf a := by
  rcases outranks with larger | ⟨same, _⟩
  · exact Int64.le_of_lt larger
  · exact same ▸ Int64.le_refl _

structure Ranking (l ranked : List Placed) : Prop where
  perm : ranked.Perm l
  ordered : ranked.Pairwise Outranks

theorem Ranking.unique {l m n : List Placed} (one : Ranking l m) (two : Ranking l n) : m = n :=
  List.Perm.eq_of_pairwise (fun _ _ _ _ above below => absurd below (Std.Asymm.asymm _ _ above))
    one.ordered two.ordered (one.perm.trans two.perm.symm)

/-! ### The sort keeps ties -/

def atLeast (a b : Placed) : Bool := decide (quantityOf b ≤ quantityOf a)

theorem atLeast_trans (a b c : Placed) (first : atLeast a b) (second : atLeast b c) :
    atLeast a c := by
  simp only [atLeast, decide_eq_true_eq] at *
  exact Int64.le_trans second first

theorem atLeast_total (a b : Placed) : atLeast a b || atLeast b a := by
  simpa [atLeast] using Int64.le_total _ _

theorem byQuantity_pairwise (l : List Placed) :
    (byQuantity l).Pairwise fun a b => atLeast a b = true :=
  List.pairwise_mergeSort atLeast_trans atLeast_total l

theorem byQuantity_filter (q : Int64) (l : List Placed) :
    ((byQuantity l).filter fun a => quantityOf a == q) = l.filter fun a => quantityOf a == q := by
  have tied : (l.filter fun a => quantityOf a == q).Pairwise fun a b => atLeast a b = true := by
    refine List.pairwise_of_forall_mem_list fun a ha b hb => ?_
    have same : quantityOf b = quantityOf a := by
      rw [eq_of_beq (List.mem_filter.mp ha).2, eq_of_beq (List.mem_filter.mp hb).2]
    exact decide_eq_true (same ▸ Int64.le_refl _)
  have kept : (l.filter fun a => quantityOf a == q).Sublist (byQuantity l) :=
    List.sublist_mergeSort atLeast_trans atLeast_total tied List.filter_sublist
  have among := kept.filter fun a => quantityOf a == q
  rw [List.filter_filter] at among
  simp only [Bool.and_self] at among
  exact (among.eq_of_length ((byQuantity_perm l).filter _).length_eq.symm).symm

theorem byQuantity_ranking {l : List Placed} (ordered : l.Pairwise Before) :
    Ranking l (byQuantity l) where
  perm := byQuantity_perm l
  ordered := by
    refine List.pairwise_iff_forall_sublist.mpr fun {a b} pair => ?_
    have falls := List.pairwise_iff_forall_sublist.mp (byQuantity_pairwise l) pair
    by_cases tie : quantityOf a = quantityOf b
    · have among := pair.filter fun c => quantityOf c == quantityOf b
      rw [byQuantity_filter] at among
      simp only [tie, beq_self_eq_true, List.filter_cons_of_pos, List.filter_nil] at among
      have before := List.pairwise_iff_forall_sublist.mp ordered (among.trans List.filter_sublist)
      exact Or.inr ⟨tie, before⟩
    · exact Or.inl (Int64.lt_of_le_of_ne (of_decide_eq_true falls) (Ne.symm tie))

/-! ### Joined place by place -/

theorem zip_pairwise {α β : Type} {r : α → α → Prop} {s : β → β → Prop} {l : List α} {m : List β}
    (hl : l.Pairwise r) (hm : m.Pairwise s) :
    (l.zip m).Pairwise fun p q => r p.1 q.1 ∧ s p.2 q.2 := by
  rw [List.pairwise_iff_getElem] at *
  intro i j hi hj before
  simp only [List.length_zip, Nat.lt_min] at hi hj
  simp only [List.getElem_zip]
  exact ⟨hl i j hi.1 hj.1 before, hm i j hi.2 hj.2 before⟩

theorem either_way_of_pairwise {α : Type} {r : α → α → Prop} {l : List α} (ordered : l.Pairwise r)
    {a b : α} (ha : a ∈ l) (hb : b ∈ l) (apart : a ≠ b) : r a b ∨ r b a := by
  have : Std.Symm fun a b => r a b ∨ r b a := ⟨fun _ _ => Or.symm⟩
  have either : l.Pairwise fun a b => r a b ∨ r b a := ordered.imp Or.inl
  exact either.forall ha hb apart

variable {existing incoming : List Record} {g : Option String} {t t' u u' : Terms} {i i' k k' : Nat}

def waitingRanked (g : Option String) (existing incoming : List Record) : List Placed :=
  byQuantity (waitingAfter [.identity, .quantity] g existing incoming)

def heldRanked (g : Option String) (existing incoming : List Record) : List Placed :=
  byQuantity (heldAfter [.identity, .quantity] g existing incoming)

theorem waitingRanked_ranking (g : Option String) (existing incoming : List Record) :
    Ranking (waitingAfter [.identity, .quantity] g existing incoming)
      (waitingRanked g existing incoming) :=
  byQuantity_ranking leftAfter_pairwise

theorem heldRanked_ranking (g : Option String) (existing incoming : List Record) :
    Ranking (heldAfter [.identity, .quantity] g existing incoming)
      (heldRanked g existing incoming) :=
  byQuantity_ranking leftAfter_pairwise

theorem pairsOf_rank (g : Option String) (existing incoming : List Record) :
    pairsOf (membersOf g existing) (membersOf g incoming) .rank =
      (waitingRanked g existing incoming).zip (heldRanked g existing incoming) := by
  rw [waitingRanked, heldRanked, waitingAfter_early, heldAfter_early]
  rfl

theorem rank_unmatched (g : Option String) (existing incoming : List Record) :
    (groupClaims (membersOf g existing) (membersOf g incoming)).unmatched =
      (waitingRanked g existing incoming).drop (heldRanked g existing incoming).length := by
  rw [waitingRanked, heldRanked, waitingAfter_early, heldAfter_early]
  rfl

theorem rank_free (g : Option String) (existing incoming : List Record) :
    (groupClaims (membersOf g existing) (membersOf g incoming)).free =
      (heldRanked g existing incoming).drop (waitingRanked g existing incoming).length := by
  rw [waitingRanked, heldRanked, waitingAfter_early, heldAfter_early]
  rfl

theorem rank_pair (member : (t, i) ∈ membersOf g incoming) (source : (u, k) ∈ membersOf g existing)
    (inherits : Inherits existing incoming .rank i k) :
    ((t, i), (u, k)) ∈ (waitingRanked g existing incoming).zip (heldRanked g existing incoming) := by
  obtain ⟨s, pair⟩ := (inherits_iff_incoming member).mp inherits
  obtain ⟨place, _⟩ := mem_members.mp (pair_members pair).2
  obtain rfl : u = s := Option.some.inj ((mem_members.mp source).1.symm.trans place)
  exact pairsOf_rank g existing incoming ▸ pair

/- No quantity is left on both sides when the rank pass begins. -/
theorem early_quantities_apart {a b : Placed}
    (held : a ∈ heldAfter [.identity, .quantity] g existing incoming)
    (waiting : b ∈ waitingAfter [.identity, .quantity] g existing incoming) :
    quantityOf a ≠ quantityOf b := by
  rw [heldAfter_early] at held
  rw [waitingAfter_early] at waiting
  intro same
  have spec := earlyClaims_claimed (membersOf g existing) (membersOf g incoming)
  have none := spec.exhausted b waiting a held
  have suit : sameQuantity b a = true := beq_iff_eq.mpr same.symm
  simp [suit] at none

theorem rank_monotone (member : (t, i) ∈ membersOf g incoming)
    (member' : (t', i') ∈ membersOf g incoming) (source : (u, k) ∈ membersOf g existing)
    (source' : (u', k') ∈ membersOf g existing) (inherits : Inherits existing incoming .rank i k)
    (inherits' : Inherits existing incoming .rank i' k') (larger : t'.quantity < t.quantity) :
    u'.quantity ≤ u.quantity := by
  have ordered := zip_pairwise (waitingRanked_ranking g existing incoming).ordered
    (heldRanked_ranking g existing incoming).ordered
  have apart : ((t, i), (u, k)) ≠ ((t', i'), (u', k')) := by
    rintro same
    cases same
    exact Int64.lt_irrefl larger
  rcases either_way_of_pairwise ordered (rank_pair member source inherits)
      (rank_pair member' source' inherits') apart with above | below
  · exact above.2.le
  · exact absurd larger (Int64.not_lt.mpr below.1.le)

theorem rank_new_le (member : (t, i) ∈ membersOf g incoming)
    (member' : (t', i') ∈ membersOf g incoming) (source : (u, k) ∈ membersOf g existing)
    (inherits : Inherits existing incoming .rank i k) (new : KeepsOwn existing incoming i') :
    t'.quantity ≤ t.quantity := by
  have late := mem_unmatched_iff.mpr ⟨member', new⟩
  rw [rank_unmatched] at late
  have ordered := (waitingRanked_ranking g existing incoming).ordered
  rw [← zip_fst_append_drop (waitingRanked g existing incoming) (heldRanked g existing incoming)]
    at ordered
  have early := List.mem_map_of_mem (f := Prod.fst) (rank_pair member source inherits)
  exact ((List.pairwise_append.mp ordered).2.2 _ early _ late).le

theorem rank_unused_le (member : (t, i) ∈ membersOf g incoming)
    (source : (u, k) ∈ membersOf g existing) (source' : (u', k') ∈ membersOf g existing)
    (inherits : Inherits existing incoming .rank i k)
    (unused : ∀ pass j, ¬ Inherits existing incoming pass j k') : u'.quantity ≤ u.quantity := by
  have late := mem_free_iff.mpr ⟨source', unused⟩
  rw [rank_free] at late
  have ordered := (heldRanked_ranking g existing incoming).ordered
  rw [← zip_snd_append_drop (waitingRanked g existing incoming) (heldRanked g existing incoming)]
    at ordered
  have early := List.mem_map_of_mem (f := Prod.snd) (rank_pair member source inherits)
  exact ((List.pairwise_append.mp ordered).2.2 _ early _ late).le

/- The rank pass in full, over whatever identity and quantity leave: no quantity is left on both sides;
   the sides are joined by rank as far as the shorter one reaches, and the rest of the incoming ones
   are new. -/
theorem rank_pass_exact (g : Option String) (existing incoming : List Record) :
    let held := heldAfter [.identity, .quantity] g existing incoming
    let waiting := waitingAfter [.identity, .quantity] g existing incoming
    (∀ a ∈ held, ∀ b ∈ waiting, quantityOf a ≠ quantityOf b) ∧
    (∃ held' waiting' : List Placed, Ranking held held' ∧ Ranking waiting waiting' ∧
      (∀ (n : Nat) t i u k, waiting'[n]? = some (t, i) → held'[n]? = some (u, k) →
        Inherits existing incoming .rank i k) ∧
      ∀ (n : Nat) t i, waiting'[n]? = some (t, i) → held.length ≤ n → KeepsOwn existing incoming i) ∧
    ∀ i k t u, (t, i) ∈ membersOf g incoming → (u, k) ∈ membersOf g existing →
      Inherits existing incoming .rank i k →
      (∀ i' k' t' u', (t', i') ∈ membersOf g incoming → (u', k') ∈ membersOf g existing →
        Inherits existing incoming .rank i' k' → t'.quantity < t.quantity →
        u'.quantity ≤ u.quantity) ∧
      (∀ i' t', (t', i') ∈ membersOf g incoming → KeepsOwn existing incoming i' →
        t'.quantity ≤ t.quantity) ∧
      ∀ k' u', (u', k') ∈ membersOf g existing →
        (∀ pass j, ¬ Inherits existing incoming pass j k') → u'.quantity ≤ u.quantity := by
  intro held waiting
  refine ⟨fun a ha b hb => early_quantities_apart ha hb, ?_, ?_⟩
  · refine ⟨_, _, heldRanked_ranking g existing incoming, waitingRanked_ranking g existing incoming,
      ?_, ?_⟩
    · intro n t i u k place source
      have pair : ((t, i), (u, k)) ∈
          pairsOf (membersOf g existing) (membersOf g incoming) .rank := by
        rw [pairsOf_rank]
        exact List.mem_of_getElem? (List.getElem?_zip_eq_some.mpr ⟨place, source⟩)
      exact (inherits_iff_incoming (pair_members pair).1).mpr ⟨u, pair⟩
    · intro n t i place beyond
      rw [← (heldRanked_ranking g existing incoming).perm.length_eq] at beyond
      have late : (t, i) ∈ (waitingRanked g existing incoming).drop
          (heldRanked g existing incoming).length := by
        refine List.mem_of_getElem? (i := n - (heldRanked g existing incoming).length) ?_
        rw [List.getElem?_drop, Nat.add_sub_cancel' beyond]
        exact place
      rw [← rank_unmatched] at late
      exact (mem_unmatched_iff.mp late).2
  · intro i k t u member source inherits
    refine ⟨?_, ?_, ?_⟩
    · intro i' k' t' u' member' source' inherits' larger
      exact rank_monotone member member' source source' inherits inherits' larger
    · intro i' t' member' new
      exact rank_new_le member member' source inherits new
    · intro k' u' source' unused
      exact rank_unused_le member source source' inherits unused

/- Ties on both sides and negative quantities. The later of the two threes gets the last record there
   is, the one of minus three, and the smallest record stays new. -/
theorem rank_pass_exact_ties :
    let existing := [Record.ofPool "a" "p" 8, .ofPool "b" "p" 8, .ofPool "c" "p" (-3),
      .ofPool "d" "p" 5]
    let incoming := [Record.ofPool "1" "p" 3, .ofPool "2" "p" 3, .ofPool "3" "p" 5,
      .ofPool "4" "p" 9, .ofPool "5" "p" (-7)]
    Inherits existing incoming .rank 0 1 ∧ Inherits existing incoming .rank 1 2 ∧
      KeepsOwn existing incoming 4 ∧ (-7 : Int64) ≤ 3 := by
  intro existing incoming
  have held : heldAfter [.identity, .quantity] (some "p") existing incoming =
      [((Record.ofPool "a" "p" 8).toTerms, 0), ((Record.ofPool "b" "p" 8).toTerms, 1),
        ((Record.ofPool "c" "p" (-3)).toTerms, 2)] := by cbv
  have waiting : waitingAfter [.identity, .quantity] (some "p") existing incoming =
      [((Record.ofPool "1" "p" 3).toTerms, 0), ((Record.ofPool "2" "p" 3).toTerms, 1),
        ((Record.ofPool "4" "p" 9).toTerms, 3), ((Record.ofPool "5" "p" (-7)).toTerms, 4)] := by cbv
  obtain ⟨_, ⟨held', waiting', ranked, ranked', joined, rest⟩, order⟩ :=
    rank_pass_exact (some "p") existing incoming
  rw [held] at ranked rest
  rw [waiting] at ranked'
  obtain rfl := ranked.unique (n := [((Record.ofPool "a" "p" 8).toTerms, 0),
    ((Record.ofPool "b" "p" 8).toTerms, 1), ((Record.ofPool "c" "p" (-3)).toTerms, 2)])
    ⟨by decide, by decide⟩
  obtain rfl := ranked'.unique (n := [((Record.ofPool "4" "p" 9).toTerms, 3),
    ((Record.ofPool "1" "p" 3).toTerms, 0), ((Record.ofPool "2" "p" 3).toTerms, 1),
    ((Record.ofPool "5" "p" (-7)).toTerms, 4)]) ⟨by decide, by decide⟩
  have last := joined 2 _ 1 _ 2 rfl rfl
  have new := rest 3 _ 4 rfl (by decide)
  refine ⟨joined 1 _ 0 _ 1 rfl rfl, last, new, ?_⟩
  exact (order 1 2 (Record.ofPool "2" "p" 3).toTerms (Record.ofPool "c" "p" (-3)).toTerms
    (by decide) (by decide) last).2.1 4 (Record.ofPool "5" "p" (-7)).toTerms (by decide) new

end SignedManifest.Subscription
