import Mathlib.Data.List.Permutation
import SignedManifest.Proofs.Subscription.Resolving

/-!
A batch under its resolved ids. Only ids change, and a batch that comes in once more unchanged finds
itself. Inherited ids never clash with each other; an id that a new record keeps is compared with
nothing, so it may clash with an inherited one.
-/
namespace SignedManifest.Subscription

variable {existing incoming : List Record}

theorem apply_eq_map_zip (outcome : Reconciliation) (incoming : List Record) :
    outcome.apply incoming =
      (incoming.zip outcome.resolutions).map fun p => { p.1 with id := p.2.id } := by
  simp only [Reconciliation.apply, List.zip_eq_zipWith, List.map_zipWith]

theorem apply_terms (existing incoming : List Record) :
    ((reconcile existing incoming).apply incoming).map Record.toTerms =
      incoming.map Record.toTerms := by
  have sizes : incoming.length ≤ (reconcile existing incoming).resolutions.length := by
    rw [reconcile_length]
  calc ((reconcile existing incoming).apply incoming).map Record.toTerms
      = ((incoming.zip (reconcile existing incoming).resolutions).map Prod.fst).map
          Record.toTerms := by
        rw [apply_eq_map_zip, List.map_map, List.map_map]
        rfl
    _ = incoming.map Record.toTerms := by rw [List.map_fst_zip sizes]

theorem apply_ids (existing incoming : List Record) :
    ((reconcile existing incoming).apply incoming).map Record.id =
      (reconcile existing incoming).resolutions.map Resolution.id := by
  have sizes : (reconcile existing incoming).resolutions.length ≤ incoming.length := by
    rw [reconcile_length]
  calc ((reconcile existing incoming).apply incoming).map Record.id
      = ((incoming.zip (reconcile existing incoming).resolutions).map Prod.snd).map
          Resolution.id := by
        rw [apply_eq_map_zip, List.map_map, List.map_map]
        rfl
    _ = (reconcile existing incoming).resolutions.map Resolution.id := by
        rw [List.map_snd_zip sizes]

theorem applied_place {i : Nat} {r : Record} {x : Resolution} (place : incoming[i]? = some r)
    (resolved : (reconcile existing incoming).resolutions[i]? = some x) :
    ((reconcile existing incoming).apply incoming)[i]? = some ⟨r.toTerms, x.id⟩ := by
  simp [Reconciliation.apply, List.getElem?_zipWith, place, resolved]

theorem applied_source {i : Nat} {f : Record}
    (applied : ((reconcile existing incoming).apply incoming)[i]? = some f) :
    ∃ r, incoming[i]? = some r ∧ r.toTerms = f.toTerms := by
  have terms : (incoming.map Record.toTerms)[i]? = some f.toTerms := by
    rw [← apply_terms existing incoming, List.getElem?_map, applied]
    rfl
  rw [List.getElem?_map] at terms
  exact Option.map_eq_some_iff.mp terms

/-! ### Importing a batch again -/

theorem sameIdentity_closed (a b : Placed) (suit : sameIdentity a b = true) :
    sameIdentity a a = true ∧ sameIdentity b b = true := by
  obtain ⟨x, left, right⟩ := sameIdentity_iff.mp suit
  exact ⟨sameIdentity_iff.mpr ⟨x, left, left⟩, sameIdentity_iff.mpr ⟨x, right, right⟩⟩

/- A group against itself: the identity pass takes all that name their upstream, the quantity pass
   takes the others, and nothing is left to rank. -/
theorem groupMatches_self (l : List Placed) :
    groupMatches l l =
      matchesOf .identity ((l.filter fun a => a.1.identity.isSome).map fun a => (a, a)) ++
        matchesOf .quantity ((l.filter fun a => !a.1.identity.isSome).map fun a => (a, a)) := by
  have named : ∀ a, sameIdentity a a = a.1.identity.isSome := by simp [sameIdentity]
  have one := claim_self sameIdentity_closed [] l (by simp)
  simp only [List.nil_append, named] at one
  have always : ∀ a, sameQuantity a a = true := by simp [sameQuantity]
  have two := claim_self (fun a b _ => ⟨always a, always b⟩) []
    (l.filter fun a => !a.1.identity.isSome) (by simp)
  simp only [List.nil_append, always, List.filter_true, Bool.not_true, List.filter_false] at two
  simp only [groupMatches, one, two]
  simp [matchesOf, byQuantity]

theorem mem_allMatches_self {ts : List Terms} {i : Nat} {t : Terms} (place : ts[i]? = some t) :
    (⟨i, i, if t.identity.isSome then .identity else .quantity⟩ : Match) ∈ allMatches ts ts := by
  refine mem_allMatches.mpr ⟨t.group, ?_⟩
  have member : (t, i) ∈ members t.group ts := mem_members.mpr ⟨place, rfl⟩
  rw [groupMatches_self, List.mem_append]
  by_cases named : t.identity.isSome = true
  · left
    refine List.mem_map.mpr ⟨((t, i), (t, i)), ?_, by simp [named]⟩
    exact List.mem_map_of_mem (f := fun a => (a, a)) (List.mem_filter.mpr ⟨member, named⟩)
  · right
    refine List.mem_map.mpr ⟨((t, i), (t, i)), ?_, by simp [named]⟩
    exact List.mem_map_of_mem (f := fun a => (a, a))
      (List.mem_filter.mpr ⟨member, by simpa using named⟩)

/- The terms of the batch are all that counts, so its records are matched as with themselves. -/
theorem reimport_fixpoint {existing incoming again : List Record}
    (same : again.map Record.toTerms = incoming.map Record.toTerms) :
    let applied := (reconcile existing incoming).apply incoming
    applied.map Record.toTerms = incoming.map Record.toTerms ∧
      (reconcile applied again).resolutions = applied.map fun r =>
        .inherited r.id (if r.identity.isSome then .identity else .quantity) := by
  intro applied
  have terms : applied.map Record.toTerms = incoming.map Record.toTerms :=
    apply_terms existing incoming
  have sizes : again.length = applied.length := by
    simpa using congrArg List.length (same.trans terms.symm)
  refine ⟨terms, List.ext_getElem? fun i => ?_⟩
  cases place : applied[i]? with
  | none =>
    have beyond := List.getElem?_eq_none_iff.mp place
    have length := reconcile_length applied again
    simp only [List.getElem?_map, place, Option.map_none, List.getElem?_eq_none_iff]
    omega
  | some r =>
    obtain ⟨q, came, termed⟩ := applied_source place
    have here : (incoming.map Record.toTerms)[i]? = some r.toTerms := by
      rw [List.getElem?_map, came, ← termed]
      rfl
    have own := mem_allMatches_self here
    have all : matched applied again =
        allMatches (incoming.map Record.toTerms) (incoming.map Record.toTerms) := by
      rw [matched, terms, same]
    rw [← all] at own
    rw [List.getElem?_map, place]
    exact resolution_matched own place

/- Twins in identity and twins in quantity: the second of each finds itself, not the first. -/
theorem reimport_fixpoint_twins :
    let existing := [(Record.ofPool "a" "p" 7).withUpstream "e" "c"]
    let incoming := [(Record.ofPool "1" "p" 5).withUpstream "e" "c", .ofPool "2" "p" 5,
      (Record.ofPool "3" "p" 5).withUpstream "e" "c", .ofPool "4" "p" 5]
    let again := [(Record.ofPool "w" "p" 5).withUpstream "e" "c", .ofPool "x" "p" 5,
      (Record.ofPool "y" "p" 5).withUpstream "e" "c", .ofPool "z" "p" 5]
    again.map Record.toTerms = incoming.map Record.toTerms ∧
      (reconcile ((reconcile existing incoming).apply incoming) again).resolutions =
        [.inherited "a" .identity, .inherited "2" .quantity, .inherited "3" .identity,
          .inherited "4" .quantity] := by
  intro existing incoming again
  have same : again.map Record.toTerms = incoming.map Record.toTerms := rfl
  refine ⟨same, (reimport_fixpoint same).2.trans ?_⟩
  cbv

/-! ### Ids within a batch -/

theorem place_unique {α β : Type} {f : α → β} {l : List α} (nodup : (l.map f).Nodup) {i j : Nat}
    {a b : α} (ha : l[i]? = some a) (hb : l[j]? = some b) (same : f a = f b) : i = j := by
  have bound : i < (l.map f).length := by
    rw [List.length_map]
    exact (List.getElem?_eq_some_iff.mp ha).1
  exact (List.getElem?_inj bound nodup).mp (by simp [ha, hb, same])

theorem inherited_once (stored : (existing.map Record.id).Nodup) {i j : Nat} {id : String}
    {p q : MatchPass}
    (hi : (reconcile existing incoming).resolutions[i]? = some (.inherited id p))
    (hj : (reconcile existing incoming).resolutions[j]? = some (.inherited id q)) : i = j := by
  obtain ⟨m, e, hm, rfl, _, source, rfl⟩ := match_of_inherited hi
  obtain ⟨n, f, hn, rfl, _, other, same⟩ := match_of_inherited hj
  have place := place_unique stored source other same.symm
  rw [allMatches_existing_unique hm hn place]

theorem kept_once (given : (incoming.map Record.id).Nodup) {i j : Nat} {id : String}
    (hi : (reconcile existing incoming).resolutions[i]? = some (.new id))
    (hj : (reconcile existing incoming).resolutions[j]? = some (.new id)) : i = j := by
  obtain ⟨r, left, rfl⟩ := record_of_new hi
  obtain ⟨s, right, same⟩ := record_of_new hj
  exact place_unique given left right same.symm

def Reconciliation.Apart (outcome : Reconciliation) : Prop :=
  ∀ id pass, Resolution.inherited id pass ∈ outcome.resolutions →
    Resolution.new id ∉ outcome.resolutions

theorem id_once (stored : (existing.map Record.id).Nodup)
    (given : (incoming.map Record.id).Nodup) (apart : (reconcile existing incoming).Apart)
    {i j : Nat} {x y : Resolution} (hx : (reconcile existing incoming).resolutions[i]? = some x)
    (hy : (reconcile existing incoming).resolutions[j]? = some y) (same : x.id = y.id) :
    i = j := by
  have memX := List.mem_of_getElem? hx
  have memY := List.mem_of_getElem? hy
  cases x with
  | inherited id p =>
    cases y with
    | inherited id' q =>
      obtain rfl : id = id' := same
      exact inherited_once stored hx hy
    | new id' =>
      obtain rfl : id = id' := same
      exact False.elim (apart id p memX memY)
  | new id =>
    cases y with
    | inherited id' q =>
      obtain rfl : id = id' := same
      exact False.elim (apart id q memY memX)
    | new id' =>
      obtain rfl : id = id' := same
      exact kept_once given hx hy

theorem applied_ids_nodup (stored : (existing.map Record.id).Nodup)
    (given : (incoming.map Record.id).Nodup) (apart : (reconcile existing incoming).Apart) :
    (((reconcile existing incoming).apply incoming).map Record.id).Nodup := by
  rw [apply_ids, List.nodup_iff_getElem?_ne_getElem?]
  intro i j before bound same
  rw [List.length_map] at bound
  have hx := List.getElem?_eq_getElem (Nat.lt_trans before bound)
  have hy := List.getElem?_eq_getElem bound
  have ids := Option.some.inj (by simpa only [List.getElem?_map, hx, hy, Option.map_some] using same)
  have := id_once stored given apart hx hy ids
  omega

theorem apart_of_nodup
    (distinct : (((reconcile existing incoming).apply incoming).map Record.id).Nodup) :
    (reconcile existing incoming).Apart := by
  intro id pass inherits keeps
  rw [apply_ids] at distinct
  obtain ⟨i, hi⟩ := List.mem_iff_getElem?.mp inherits
  obtain ⟨j, hj⟩ := List.mem_iff_getElem?.mp keeps
  obtain rfl := place_unique distinct hi hj rfl
  rw [hi] at hj
  cases hj

theorem apart_of_fresh (fresh : ∀ r ∈ incoming, ∀ e ∈ existing, r.id ≠ e.id) :
    (reconcile existing incoming).Apart := by
  intro id pass inherits keeps
  obtain ⟨i, hi⟩ := List.mem_iff_getElem?.mp inherits
  obtain ⟨j, hj⟩ := List.mem_iff_getElem?.mp keeps
  obtain ⟨m, e, _, _, _, stored, rfl⟩ := match_of_inherited hi
  obtain ⟨r, place, same⟩ := record_of_new hj
  exact fresh r (List.mem_of_getElem? place) e (List.mem_of_getElem? stored) same

/- The exact condition for distinct ids after reconciliation. Fresh ids always meet it. -/
theorem applied_ids_distinct_iff (stored : (existing.map Record.id).Nodup)
    (given : (incoming.map Record.id).Nodup) :
    (∀ (i j : Nat) (id : String) (p q : MatchPass),
      (reconcile existing incoming).resolutions[i]? = some (.inherited id p) →
      (reconcile existing incoming).resolutions[j]? = some (.inherited id q) → i = j) ∧
    ((((reconcile existing incoming).apply incoming).map Record.id).Nodup ↔
      (reconcile existing incoming).Apart) ∧
    ((∀ r ∈ incoming, ∀ e ∈ existing, r.id ≠ e.id) →
      (((reconcile existing incoming).apply incoming).map Record.id).Nodup) :=
  ⟨fun _ _ _ _ _ hi hj => inherited_once stored hi hj,
    ⟨apart_of_nodup, applied_ids_nodup stored given⟩,
    fun fresh => applied_ids_nodup stored given (apart_of_fresh fresh)⟩

/- Every pass and both kinds of outcome, with an old id kept that no other record inherits. -/
theorem applied_ids_distinct_iff_mixed :
    let existing := [(Record.ofPool "a" "p" 7).withUpstream "e" "c", .ofPool "b" "p" 5,
      .ofPool "c" "q" 3, .ofPool "d" "r" 1]
    let incoming := [(Record.ofPool "1" "p" 5).withUpstream "e" "c", .ofPool "2" "p" 5,
      .ofPool "3" "q" 4, .ofPool "d" "q" 2]
    (existing.map Record.id).Nodup ∧ (incoming.map Record.id).Nodup ∧
      (((reconcile existing incoming).apply incoming).map Record.id).Nodup := by
  intro existing incoming
  have stored : (existing.map Record.id).Nodup := by decide
  have given : (incoming.map Record.id).Nodup := by decide
  refine ⟨stored, given, (applied_ids_distinct_iff stored given).2.1.mpr ?_⟩
  have outcome : (reconcile existing incoming).resolutions =
      [.inherited "a" .identity, .inherited "b" .quantity, .inherited "c" .rank, .new "d"] := by
    cbv
  intro id pass inherits keeps
  rw [outcome] at inherits keeps
  have last : id = "d" := by simpa using keeps
  subst last
  simp at inherits

/- The kept id of a record in another group is that of an existing record which is inherited. -/
theorem applied_ids_may_clash :
    ¬ ∀ existing incoming : List Record, (existing.map Record.id).Nodup →
      (incoming.map Record.id).Nodup →
      (((reconcile existing incoming).apply incoming).map Record.id).Nodup := by
  intro always
  have clash := always [.ofPool "a" "p" 5] [.ofPool "1" "p" 5, .ofPool "a" "q" 1] (by decide)
    (by decide)
  have ids : ((reconcile [.ofPool "a" "p" 5] [.ofPool "1" "p" 5, .ofPool "a" "q" 1]).apply
      [.ofPool "1" "p" 5, .ofPool "a" "q" 1]).map Record.id = ["a", "a"] := by cbv
  rw [ids] at clash
  simp at clash

end SignedManifest.Subscription
