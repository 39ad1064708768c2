import Mathlib.Algebra.Order.BigOperators.Group.Finset
import SignedManifest.Proofs.Subscription.Passes

/-!
Which existing record an incoming one continues by identity and by quantity, told by counting. The
records of one upstream identity are served in input order on both sides, and so are those of one
quantity among what the identities leave.
-/
namespace SignedManifest.Subscription

/-! ### Counting along a list -/

section
variable {α : Type}

theorem zipIdx_filter_nth (p : α → Bool) {l : List α} {i : Nat} {a : α} (found : l[i]? = some a)
    (has : p a) :
    (l.zipIdx.filter fun t => p t.1)[(l.take i).countP p]? = some (a, i) := by
  obtain ⟨nth, back⟩ := placeAmong_count found has
  rw [List.countP_eq_length_filter, zipIdx_filter, List.getElem?_map, List.getElem?_zipIdx, nth]
  simp [back]

theorem exists_nth_iff {l : List (α × Nat)} {n : Nat} :
    (∃ k a, l[n]? = some (a, k)) ↔ n < l.length := by
  constructor
  · rintro ⟨k, a, found⟩
    exact (List.getElem?_eq_some_iff.mp found).1
  · intro bound
    exact ⟨l[n].2, l[n].1, List.getElem?_eq_getElem bound⟩

theorem zipIdx_filter_length (p : α → Bool) (l : List α) :
    (l.zipIdx.filter fun t => p t.1).length = l.countP p := by
  rw [← List.length_map Prod.fst, zipIdx_filter_fst, List.countP_eq_length_filter]

end

namespace Terms

def named (t : Terms) : Bool :=
  t.upstreamEntitlementId.any (· ≠ "") && t.upstreamConsumerId.any (· ≠ "")

def twin (t u : Terms) : Bool :=
  u.group == t.group && u.upstreamEntitlementId == t.upstreamEntitlementId &&
    u.upstreamConsumerId == t.upstreamConsumerId

theorem identity_eq_some {t : Terms} {e c : String} :
    t.identity = some (e, c) ↔ t.upstreamEntitlementId = some e ∧
      t.upstreamConsumerId = some c ∧ e ≠ "" ∧ c ≠ "" := by
  simp only [identity, present, Option.bind_eq_bind, Option.bind_eq_some_iff,
    Option.filter_eq_some_iff, decide_eq_true_eq, Option.pure_def, Option.some.injEq, Prod.mk.injEq]
  constructor
  · rintro ⟨_, ⟨entitlement, e⟩, _, ⟨consumer, c⟩, rfl, rfl⟩
    exact ⟨entitlement, consumer, e, c⟩
  · rintro ⟨entitlement, consumer, e, c⟩
    exact ⟨_, ⟨entitlement, e⟩, _, ⟨consumer, c⟩, rfl, rfl⟩

theorem named_iff {t : Terms} : t.named = true ↔ ∃ x, t.identity = some x := by
  simp only [named, Bool.and_eq_true, Option.any_eq_true, decide_eq_true_eq, Prod.exists,
    identity_eq_some]
  constructor
  · rintro ⟨⟨e, entitlement, he⟩, c, consumer, hc⟩
    exact ⟨e, c, entitlement, consumer, he, hc⟩
  · rintro ⟨e, c, entitlement, consumer, he, hc⟩
    exact ⟨⟨e, entitlement, he⟩, c, consumer, hc⟩

theorem twin_iff {t u : Terms} {x : String × String} (named : t.identity = some x) :
    t.twin u = true ↔ u.group = t.group ∧ u.identity = some x := by
  obtain ⟨e, c⟩ := x
  obtain ⟨entitlement, consumer, he, hc⟩ := identity_eq_some.mp named
  simp [twin, identity_eq_some, entitlement, consumer, he, hc, and_assoc]

end Terms

variable {existing incoming : List Record} {g : Option String}

theorem membersOf_eq (g : Option String) (l : List Record) :
    membersOf g l =
      (l.zipIdx.filter fun t => t.1.group == g).map (Prod.map Record.toTerms id) := by
  rw [membersOf, members, List.zipIdx_map, List.filter_map]
  rfl

/-! ### By identity -/

theorem ofKey_identity {t : Terms} {x : String × String} (named : t.identity = some x)
    (l : List Record) :
    ofKey identityKey x (membersOf t.group l) =
      (l.zipIdx.filter fun s => t.twin s.1.toTerms).map (Prod.map Record.toTerms id) := by
  rw [ofKey, membersOf_eq, List.filter_map, List.filter_filter]
  refine congrArg _ (List.filter_congr fun s _ => ?_)
  rw [Bool.eq_iff_iff, Terms.twin_iff named]
  simp [identityKey, and_comm]

theorem inherits_identity_iff {i k : Nat} {r : Record} {x : String × String}
    (place : incoming[i]? = some r) (named : r.identity = some x) :
    Inherits existing incoming .identity i k ↔
      ∃ e, (existing.zipIdx.filter fun t => r.twin t.1.toTerms)[
        (incoming.take i).countP fun s => r.twin s.toTerms]? = some (e, k) := by
  have own : r.twin r.toTerms = true := (Terms.twin_iff named).mpr ⟨rfl, named⟩
  have nth : (ofKey identityKey x (membersOf r.group incoming))[
      (incoming.take i).countP fun s => r.twin s.toTerms]? = some (r.toTerms, i) := by
    have counted := zipIdx_filter_nth (fun s : Record => r.twin s.toTerms) place own
    rw [ofKey_identity named, List.getElem?_map, counted]
    rfl
  have partner (u : Terms) : ((r.toTerms, i), (u, k)) ∈ (claim sameIdentity
      (membersOf r.group incoming) (membersOf r.group existing)).pairs ↔ _ :=
    claim_pair_iff sameIdentity_byKey (members_pairwise r.group _).nodup nth
  rw [inherits_iff_incoming (mem_membersOf place)]
  simp only [pairsOf, identityClaims, partner, ofKey_identity named, List.getElem?_map,
    Option.map_eq_some_iff, Prod.exists, Prod.map_apply, id_eq, Prod.mk.injEq]
  constructor
  · rintro ⟨_, e, _, source, rfl, rfl⟩
    exact ⟨e, source⟩
  · rintro ⟨e, source⟩
    exact ⟨_, e, _, source, rfl, rfl⟩

theorem named_of_inherits {i k : Nat} {r : Record} (place : incoming[i]? = some r)
    (inherits : Inherits existing incoming .identity i k) : r.named = true := by
  obtain ⟨u, pair⟩ := (inherits_iff_incoming (mem_membersOf place)).mp inherits
  obtain ⟨x, named, _⟩ := sameIdentity_iff.mp ((claim_claimed _ _).suited _ pair)
  exact Terms.named_iff.mpr ⟨x, named⟩

/- The identity pass in full: the record that comes after `j` of its twins, itself naming its upstream,
   continues the existing twin that comes after `j` others, and is left to the later passes if there
   is none. -/
theorem identity_pass_exact (existing incoming : List Record) {i : Nat} {r : Record}
    (place : incoming[i]? = some r) :
    let twin := fun s : Record => r.twin s.toTerms
    let earlier := (incoming.take i).countP twin
    (passAt existing incoming i = some .identity ↔
      r.named = true ∧ earlier < existing.countP twin) ∧
    ∀ e k, r.named = true → (existing.zipIdx.filter fun t => twin t.1)[earlier]? = some (e, k) →
      Inherits existing incoming .identity i k := by
  intro twin earlier
  constructor
  · rw [passAt_iff, ← zipIdx_filter_length]
    constructor
    · rintro ⟨k, inherits⟩
      have named := named_of_inherits place inherits
      obtain ⟨x, identity⟩ := Terms.named_iff.mp named
      exact ⟨named, exists_nth_iff.mp ⟨k, (inherits_identity_iff place identity).mp inherits⟩⟩
    · rintro ⟨named, enough⟩
      obtain ⟨x, identity⟩ := Terms.named_iff.mp named
      obtain ⟨k, source⟩ := exists_nth_iff.mpr enough
      exact ⟨k, (inherits_identity_iff place identity).mpr source⟩
  · intro e k named source
    obtain ⟨x, identity⟩ := Terms.named_iff.mp named
    exact (inherits_identity_iff place identity).mpr ⟨e, source⟩

/- Two pairs of twins around records of the same entitlement that lack a consumer: the second of the
   incoming twins continues the second existing one, and the half-named record continues nobody. -/
theorem identity_pass_exact_twins :
    let half := fun (id : String) (n : Int64) => (Record.ofPool id "p" n).withUpstream "e" ""
    let full := fun (id : String) (n : Int64) => (Record.ofPool id "p" n).withUpstream "e" "c"
    let existing := [half "a" 1, full "b" 2, full "c" 3]
    let incoming := [full "1" 9, half "2" 9, full "3" 9]
    incoming[2]? = some (full "3" 9) ∧ incoming[1]? = some (half "2" 9) ∧
      Inherits existing incoming .identity 2 2 ∧ passAt existing incoming 1 ≠ some .identity := by
  intro half full existing incoming
  refine ⟨rfl, rfl, ?_, ?_⟩
  · exact (identity_pass_exact existing incoming (i := 2) rfl).2 (full "c" 3) 2 (by decide)
      (by decide)
  · intro passed
    have named := ((identity_pass_exact existing incoming (i := 1) rfl).1.mp passed).1
    exact absurd named (by decide)

/-! ### By quantity -/

theorem ofKey_quantity (q : Int64) (l : List Placed) :
    ofKey (fun a => some (quantityOf a)) q l = l.filter fun a => quantityOf a == q := by
  simp [ofKey]

theorem inherits_quantity_iff {p : Nat} {t : Terms} {i k : Nat}
    (place : (waitingAfter [.identity] g existing incoming)[p]? = some (t, i)) :
    Inherits existing incoming .quantity i k ↔
      ∃ u, ((heldAfter [.identity] g existing incoming).filter fun s => quantityOf s == t.quantity)[
        ((waitingAfter [.identity] g existing incoming).take p).countP
          fun s => quantityOf s == t.quantity]? = some (u, k) := by
  have member := (mem_waitingAfter.mp (List.mem_of_getElem? place)).1
  have nodup : (waitingAfter [.identity] g existing incoming).Nodup := leftAfter_pairwise.nodup
  have nth := (placeAmong_count (p := fun s => quantityOf s == t.quantity) place
    (by simp [quantityOf])).1
  rw [← List.countP_eq_length_filter, ← ofKey_quantity] at nth
  have partner (u : Terms) : ((t, i), (u, k)) ∈ (claim sameQuantity
      (waitingAfter [.identity] g existing incoming)
      (heldAfter [.identity] g existing incoming)).pairs ↔ _ :=
    claim_pair_iff sameQuantity_byKey nodup nth
  rw [inherits_iff_incoming member]
  simp only [pairsOf, quantityClaims, ← waitingAfter_identity, ← heldAfter_identity]
  simp only [partner, ofKey_quantity]

theorem groupResolutions_count (g : Option String) (existing incoming : List Record)
    (pass : MatchPass) :
    (Reconciliation.mk (groupResolutions g existing incoming)).count pass =
      (membersOf g incoming).countP fun t => passAt existing incoming t.2 == some pass := by
  simp only [Reconciliation.count, groupResolutions, zip_resolutions, List.filter_map,
    List.countP_map, membersOf_eq]
  refine List.countP_congr fun s member => ?_
  obtain ⟨r, i⟩ := s
  have place := List.mk_mem_zipIdx_iff_getElem?.mp (List.mem_filter.mp member).1
  simp [passAt, reconcile_getElem?, place]

theorem resolved_perm (g : Option String) (existing incoming : List Record) (pass : MatchPass) :
    ((membersOf g incoming).filter fun t => passAt existing incoming t.2 == some pass).Perm
      ((pairsOf (membersOf g existing) (membersOf g incoming) pass).map Prod.fst) := by
  have ordered := members_pairwise g (incoming.map Record.toTerms)
  have spec := groupClaims_claimed (membersOf g existing) (membersOf g incoming)
  have once := (spec.lefts.nodup_iff.mpr ordered.nodup).of_append_left.sublist
    ((pairsOf_sublist (membersOf g existing) (membersOf g incoming) pass).map Prod.fst)
  refine (List.perm_ext_iff_of_nodup (ordered.nodup.filter _) once).mpr fun (t, i) => ?_
  simp only [List.mem_filter, beq_iff_eq, passAt_iff, List.mem_map, Prod.exists,
    exists_and_right, exists_eq_right]
  constructor
  · rintro ⟨member, k, inherits⟩
    obtain ⟨u, pair⟩ := (inherits_iff_incoming member).mp inherits
    exact ⟨u, k, pair⟩
  · rintro ⟨u, k, pair⟩
    have member := (pair_members pair).1
    exact ⟨member, k, (inherits_iff_incoming member).mpr ⟨u, pair⟩⟩

theorem resolved_count (g : Option String) (existing incoming : List Record) (pass : MatchPass) :
    (Reconciliation.mk (groupResolutions g existing incoming)).count pass =
      (pairsOf (membersOf g existing) (membersOf g incoming) pass).length := by
  rw [groupResolutions_count, List.countP_eq_length_filter,
    (resolved_perm g existing incoming pass).length_eq, List.length_map]

theorem claim_quantity_length (left right : List Placed) {s : Finset Int64}
    (covers : ∀ a ∈ left, quantityOf a ∈ s) :
    (claim sameQuantity left right).pairs.length = ∑ q ∈ s,
      min (right.countP fun a => quantityOf a == q) (left.countP fun a => quantityOf a == q) := by
  have served := claim_served sameQuantity_byKey left right
  have spec : Claimed sameQuantity left right _ := claim_claimed left right
  let quantities := (claim sameQuantity left right).pairs.map fun p => quantityOf p.1
  have inside : ∀ q ∈ (quantities : Multiset Int64), q ∈ s := by
    intro q member
    obtain ⟨p, pair, rfl⟩ := List.mem_map.mp (Multiset.mem_coe.mp member)
    exact covers p.1 (spec.lefts.subset (List.mem_append_left _ (List.mem_map_of_mem pair)))
  have each (q : Int64) : quantities.count q =
      min (right.countP fun a => quantityOf a == q) (left.countP fun a => quantityOf a == q) := by
    have pairs := congrArg List.length (served.pairs q)
    rw [List.length_zip, ofKey_quantity, ofKey_quantity, Nat.min_comm] at pairs
    simp only [← List.countP_eq_length_filter] at pairs
    rw [List.count, List.countP_map]
    exact pairs
  calc (claim sameQuantity left right).pairs.length
      = Multiset.card (quantities : Multiset Int64) := by simp [quantities]
    _ = ∑ q ∈ s, Multiset.count q (quantities : Multiset Int64) :=
        (Multiset.sum_count_eq_card inside).symm
    _ = _ := Finset.sum_congr rfl fun q _ => by rw [Multiset.coe_count, each]

/- The quantity pass in full, over whatever identity leaves: the record that comes after `j` others of
   its quantity continues the existing one that does, and is left to the last pass if there is none. -/
theorem quantity_pass_exact (g : Option String) (existing incoming : List Record) :
    let held := heldAfter [.identity] g existing incoming
    let waiting := waitingAfter [.identity] g existing incoming
    (∀ p t i, waiting[p]? = some (t, i) →
      let alike := fun s : Placed => quantityOf s == t.quantity
      let earlier := (waiting.take p).countP alike
      (passAt existing incoming i = some .quantity ↔ earlier < held.countP alike) ∧
      ∀ u k, (held.filter alike)[earlier]? = some (u, k) →
        Inherits existing incoming .quantity i k) ∧
    (Reconciliation.mk (groupResolutions g existing incoming)).count .quantity =
      ∑ q ∈ ((held ++ waiting).map quantityOf).toFinset,
        min (held.countP fun s => quantityOf s == q) (waiting.countP fun s => quantityOf s == q) := by
  intro held waiting
  constructor
  · intro p t i place alike earlier
    have exact (k : Nat) : Inherits existing incoming .quantity i k ↔
        ∃ u, (held.filter alike)[earlier]? = some (u, k) := inherits_quantity_iff place
    constructor
    · rw [passAt_iff, List.countP_eq_length_filter, ← exists_nth_iff]
      exact exists_congr exact
    · intro u k source
      exact (exact k).mpr ⟨u, source⟩
  · rw [resolved_count, pairsOf, quantityClaims, ← waitingAfter_identity, ← heldAfter_identity]
    refine claim_quantity_length _ _ fun a member => ?_
    exact List.mem_toFinset.mpr (List.mem_map_of_mem (List.mem_append_right _ member))

/- One identity and three quantities. The second of the incoming fives continues the second five that
   identity leaves, past a seven between them and a five that it has taken. -/
theorem quantity_pass_exact_fives :
    let existing := [(Record.ofPool "a" "p" 5).withUpstream "e" "c", .ofPool "b" "p" 5,
      .ofPool "c" "p" 7, .ofPool "d" "p" 5]
    let incoming := [Record.ofPool "1" "p" 5, (Record.ofPool "2" "p" 9).withUpstream "e" "c",
      .ofPool "3" "p" 5, .ofPool "4" "p" 7, .ofPool "5" "p" 5]
    let waiting := waitingAfter [.identity] (some "p") existing incoming
    waiting[1]? = some ((Record.ofPool "3" "p" 5).toTerms, 2) ∧
      Inherits existing incoming .quantity 2 3 ∧
      waiting[3]? = some ((Record.ofPool "5" "p" 5).toTerms, 4) ∧
      passAt existing incoming 4 ≠ some .quantity ∧
      (Reconciliation.mk (groupResolutions (some "p") existing incoming)).count .quantity = 3 := by
  intro existing incoming waiting
  have second : waiting[1]? = some ((Record.ofPool "3" "p" 5).toTerms, 2) := by decide +kernel
  have fourth : waiting[3]? = some ((Record.ofPool "5" "p" 5).toTerms, 4) := by decide +kernel
  obtain ⟨each, sum⟩ := quantity_pass_exact (some "p") existing incoming
  refine ⟨second, ?_, fourth, ?_, ?_⟩
  · exact (each 1 _ 2 second).2 (Record.ofPool "d" "p" 5).toTerms 3 (by decide +kernel)
  · intro passed
    have enough := (each 3 _ 4 fourth).1.mp passed
    revert enough
    decide +kernel
  · rw [sum]
    decide +kernel

end SignedManifest.Subscription
