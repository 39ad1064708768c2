import Mathlib.Data.List.Perm.Basic
import SignedManifest.Proofs.Subscription.Ranking

/-!
The order of the input where nothing ties. If within each group no quantity and no named upstream
identity stands twice on one side, each pass pairs the same records whatever order they come in, and
leaves the same ones over. So existing records can be put in any order, and incoming ones take their
resolutions along.
-/
namespace SignedManifest.Subscription

/-! ### Rearranging a list -/

section
variable {α β : Type}

/-- The elements of a list in another order: those at the places that are listed, one after the other. -/
def arrange (order : List Nat) (l : List α) : List α := order.filterMap fun n => l[n]?

def placeIn (order : List Nat) (j : Nat) : Nat := order[j]?.getD 0

theorem filterMap_getElem? {f : α → Option β} {l : List α} (some : ∀ a ∈ l, (f a).isSome = true)
    (j : Nat) : (l.filterMap f)[j]? = l[j]?.bind f := by
  induction l generalizing j with
  | nil => rfl
  | cons a l ih =>
    obtain ⟨b, here⟩ := Option.isSome_iff_exists.mp (some a (by simp))
    have later := ih fun c member => some c (List.mem_cons_of_mem a member)
    cases j with
    | zero => simp [here]
    | succ j => simp [here, later]

theorem mem_order {order : List Nat} {n k : Nat} (perm : order.Perm (List.range n)) :
    k ∈ order ↔ k < n := by
  rw [perm.mem_iff, List.mem_range]

theorem arrange_getElem? {order : List Nat} {l : List α} (perm : order.Perm (List.range l.length))
    (j : Nat) : (arrange order l)[j]? = order[j]?.bind fun n => l[n]? :=
  filterMap_getElem? (fun n member => by simpa using (mem_order perm).mp member) j

theorem arrange_map (f : α → β) (order : List Nat) (l : List α) :
    (arrange order l).map f = arrange order (l.map f) := by
  simp [arrange, List.map_filterMap]

theorem arrange_range (l : List α) : arrange (List.range l.length) l = l := by
  refine List.ext_getElem? fun j => ?_
  rw [arrange_getElem? (.refl _)]
  by_cases bound : j < l.length
  · simp [bound]
  · simp [bound]

theorem exists_arrange {l l' : List α} (perm : l'.Perm l) :
    ∃ order, order.Perm (List.range l.length) ∧ l' = arrange order l := by
  have listed : l'.Perm (l.zipIdx.map Prod.fst) := (List.zipIdx_map_fst 0 l).symm ▸ perm
  obtain ⟨placed, rfl, moved⟩ := (congrFun₂ (List.eq_map_comp_perm Prod.fst) l' l.zipIdx).mpr listed
  refine ⟨placed.map Prod.snd, ?_, ?_⟩
  · have places := moved.map Prod.snd
    rwa [List.zipIdx_map_snd, ← List.range_eq_range'] at places
  · rw [arrange, List.filterMap_map, ← List.filterMap_eq_map]
    refine List.filterMap_congr fun t member => ?_
    exact (List.mk_mem_zipIdx_iff_getElem?.mp (moved.subset member)).symm

theorem zipIdx_arrange {order : List Nat} {l : List α} (perm : order.Perm (List.range l.length)) :
    ((arrange order l).zipIdx.map fun t => (t.1, placeIn order t.2)).Perm l.zipIdx := by
  have placed (order : List Nat) (inside : ∀ n ∈ order, n < l.length) :
      ∀ n ∈ order, ((l[n]?).map fun a => (a, n)).isSome = true := by
    intro n member
    simpa using inside n member
  have before : ((arrange order l).zipIdx.map fun t => (t.1, placeIn order t.2)) =
      order.filterMap fun n => (l[n]?).map fun a => (a, n) := by
    refine List.ext_getElem? fun j => ?_
    rw [filterMap_getElem? (placed order fun n => (mem_order perm).mp), List.getElem?_map,
      List.getElem?_zipIdx, arrange_getElem? perm]
    cases here : order[j]? with
    | none => rfl
    | some n => simp [placeIn, here, Option.map_map, Function.comp_def]
  have listed : ((List.range l.length).filterMap fun n => (l[n]?).map fun a => (a, n)) =
      l.zipIdx := by
    refine List.ext_getElem? fun j => ?_
    rw [filterMap_getElem? (placed _ fun n => List.mem_range.mp), List.getElem?_zipIdx]
    by_cases bound : j < l.length <;> simp [bound]
  rw [before, ← listed]
  exact perm.filterMap _

end

theorem members_arrange {order : List Nat} {ts : List Terms} (g : Option String)
    (perm : order.Perm (List.range ts.length)) :
    ((members g (arrange order ts)).map (Placed.renumber (placeIn order))).Perm (members g ts) := by
  have within := (zipIdx_arrange perm).filter fun t => t.1.group == g
  rw [List.filter_map] at within
  exact within

/-! ### A pass over keys that stand once -/

section
variable {α κ : Type} {suits : α → α → Bool} {key : α → Option κ} {left left' right right' : List α}

def Once (key : α → Option κ) (l : List α) : Prop :=
  l.Pairwise fun a b => ∀ x, key a = some x → key b ≠ some x

theorem Once.unique {l : List α} (once : Once key l) {a b : α} {x : κ} (ha : a ∈ l) (hb : b ∈ l)
    (hx : key a = some x) (hy : key b = some x) : a = b := by
  by_contra apart
  rcases either_way_of_pairwise once ha hb apart with differs | differs
  · exact differs x hx hy
  · exact differs x hy hx

structure Claims.Alike (c' c : Claims α α) : Prop where
  pairs : c'.pairs.Perm c.pairs
  unmatched : c'.unmatched.Perm c.unmatched
  free : c'.free.Perm c.free

theorem mem_claim_pairs (byKey : ByKey suits key) (once : Once key left) (once' : Once key right)
    (nodup : left.Nodup) {a b : α} :
    (a, b) ∈ (claim suits left right).pairs ↔ a ∈ left ∧ b ∈ right ∧ suits a b = true := by
  constructor
  · intro pair
    have spec : Claimed suits left right _ := claim_claimed left right
    exact ⟨spec.lefts.subset (List.mem_append_left _ (List.mem_map_of_mem (f := Prod.fst) pair)),
      spec.rights.subset (List.mem_append_left _ (List.mem_map_of_mem (f := Prod.snd) pair)),
      spec.suited _ pair⟩
  · rintro ⟨ha, hb, suit⟩
    obtain ⟨x, hx, hy⟩ := (byKey a b).mp suit
    refine claim_pairs_sole nodup ha hb suit ?_ ?_
    · intro c hc suit'
      obtain ⟨y, here, there⟩ := (byKey a c).mp suit'
      obtain rfl : x = y := Option.some.inj (hx.symm.trans here)
      exact once'.unique hc hb there hy
    · intro c hc suit'
      obtain ⟨y, here, there⟩ := (byKey c b).mp suit'
      obtain rfl : x = y := Option.some.inj (hy.symm.trans there)
      exact once.unique hc ha here hx

theorem Once.perm {l l' : List α} (once : Once key l) (perm : l'.Perm l) : Once key l' :=
  perm.symm.pairwise once fun differs x hb ha => differs x ha hb

theorem claim_alike (byKey : ByKey suits key) (once : Once key left) (once' : Once key right)
    (nodup : left.Nodup) (hl : left'.Perm left) (hr : right'.Perm right) :
    (claim suits left' right').Alike (claim suits left right) := by
  have spec : Claimed suits left right _ := claim_claimed left right
  have spec' : Claimed suits left' right' _ := claim_claimed left' right'
  have nodup' : left'.Nodup := hl.nodup_iff.mpr nodup
  have single : (claim suits left right).pairs.Nodup :=
    List.Nodup.of_map _ (spec.lefts.nodup_iff.mpr nodup).of_append_left
  have single' : (claim suits left' right').pairs.Nodup :=
    List.Nodup.of_map _ (spec'.lefts.nodup_iff.mpr nodup').of_append_left
  have pairs : (claim suits left' right').pairs.Perm (claim suits left right).pairs := by
    refine (List.perm_ext_iff_of_nodup single' single).mpr fun (a, b) => ?_
    rw [mem_claim_pairs byKey (once.perm hl) (once'.perm hr) nodup',
      mem_claim_pairs byKey once once' nodup, hl.mem_iff, hr.mem_iff]
  -- with the pairs taken away the rest is the same as well
  refine ⟨pairs, ?_, ?_⟩
  · have whole := spec'.lefts.trans (hl.trans spec.lefts.symm)
    exact (List.perm_append_left_iff _).mp (((pairs.map Prod.fst).symm.append_right _).trans whole)
  · have whole := spec'.rights.trans (hr.trans spec.rights.symm)
    exact (List.perm_append_left_iff _).mp (((pairs.map Prod.snd).symm.append_right _).trans whole)

end

/-! ### One group -/

structure Apart (l : List Placed) : Prop where
  quantities : Once (fun a => some (quantityOf a)) l
  identities : Once identityKey l

theorem Apart.sublist {l l' : List Placed} (apart : Apart l) (fewer : l'.Sublist l) : Apart l' :=
  ⟨List.Pairwise.sublist fewer apart.quantities, List.Pairwise.sublist fewer apart.identities⟩

theorem Apart.nodup {l : List Placed} (apart : Apart l) : l.Nodup := by
  refine List.Pairwise.imp (fun {a b} differs => ?_) apart.quantities
  rintro rfl
  exact differs _ rfl rfl

/- Where no quantity stands twice there is one way to sort by it. -/
theorem byQuantity_congr {l l' : List Placed} (apart : Apart l) (perm : l'.Perm l) :
    byQuantity l' = byQuantity l := by
  have same := (byQuantity_perm l').trans (perm.trans (byQuantity_perm l).symm)
  refine same.eq_of_pairwise (fun a b ha hb above below => ?_) (byQuantity_pairwise l')
    (byQuantity_pairwise l)
  have tie : quantityOf a = quantityOf b :=
    Int64.le_antisymm (of_decide_eq_true below) (of_decide_eq_true above)
  exact apart.quantities.unique (perm.subset ((byQuantity_perm l').subset ha))
    ((byQuantity_perm l).subset hb) rfl (congrArg some tie.symm)

section
variable {existing existing' incoming incoming' : List Placed}

theorem pairsOf_perm (apart : Apart existing) (apart' : Apart incoming)
    (pe : existing'.Perm existing) (pi : incoming'.Perm incoming) (pass : MatchPass) :
    (pairsOf existing' incoming' pass).Perm (pairsOf existing incoming pass) := by
  have identity : (identityClaims existing' incoming').Alike (identityClaims existing incoming) :=
    claim_alike sameIdentity_byKey apart'.identities apart.identities apart'.nodup pi pe
  have waiting : Apart (identityClaims existing incoming).unmatched :=
    apart'.sublist (claim_unmatched_sublist _ _)
  have held : Apart (identityClaims existing incoming).free :=
    apart.sublist (claim_free_sublist _ _)
  have quantity : (quantityClaims existing' incoming').Alike (quantityClaims existing incoming) :=
    claim_alike sameQuantity_byKey waiting.quantities held.quantities waiting.nodup
      identity.unmatched identity.free
  cases pass with
  | identity => exact identity.pairs
  | quantity => exact quantity.pairs
  | rank =>
    have waiting' : Apart (quantityClaims existing incoming).unmatched :=
      waiting.sublist (claim_unmatched_sublist _ _)
    have held' : Apart (quantityClaims existing incoming).free :=
      held.sublist (claim_free_sublist _ _)
    rw [pairsOf, pairsOf, byQuantity_congr waiting' quantity.unmatched,
      byQuantity_congr held' quantity.free]

theorem groupMatches_perm (apart : Apart existing) (apart' : Apart incoming)
    (pe : existing'.Perm existing) (pi : incoming'.Perm incoming) {m : Match} :
    m ∈ groupMatches existing' incoming' ↔ m ∈ groupMatches existing incoming := by
  obtain ⟨i, k, pass⟩ := m
  rw [mem_groupMatches, mem_groupMatches]
  exact exists_congr fun t => exists_congr fun u => (pairsOf_perm apart apart' pe pi pass).mem_iff

end

/-! ### Whole batches -/

/-- Two members of a group that a pass cannot tell apart by what it goes by. -/
def Terms.Ties (t u : Terms) : Prop :=
  t.group = u.group ∧
    (t.quantity = u.quantity ∨ t.identity.isSome = true ∧ t.identity = u.identity)

instance : DecidableRel Terms.Ties := fun _ _ => inferInstanceAs (Decidable (_ ∧ _))

def Untied (l : List Record) : Prop := l.Pairwise fun r s => ¬ r.toTerms.Ties s.toTerms

instance (l : List Record) : Decidable (Untied l) := inferInstanceAs (Decidable (l.Pairwise _))

theorem Untied.apart {l : List Record} (untied : Untied l) (g : Option String) :
    Apart (membersOf g l) := by
  have members : (membersOf g l).Pairwise fun a b => ¬ a.1.Ties b.1 := by
    have placed : (l.map Record.toTerms).zipIdx.Pairwise fun a b => ¬ a.1.Ties b.1 := by
      have terms : (l.map Record.toTerms).Pairwise fun t u => ¬ t.Ties u := List.pairwise_map.mpr untied
      rw [← List.zipIdx_map_fst 0 (l.map Record.toTerms)] at terms
      exact List.pairwise_map.mp terms
    exact placed.filter _
  have inside {a : Placed} (member : a ∈ membersOf g l) : a.1.group = g := (mem_members.mp member).2
  constructor
  · refine members.imp_of_mem fun {a b} ha hb untied x hx hy => untied ⟨?_, .inl ?_⟩
    · rw [inside ha, inside hb]
    · exact (Option.some.inj hx).trans (Option.some.inj hy).symm
  · refine members.imp_of_mem fun {a b} ha hb untied x hx hy => untied ⟨?_, .inr ⟨?_, ?_⟩⟩
    · rw [inside ha, inside hb]
    · exact Option.isSome_of_eq_some hx
    · exact hx.trans hy.symm

variable {existing existing' incoming : List Record} {before order : List Nat}

theorem mem_matched_arrange (untied : Untied existing) (untied' : Untied incoming)
    (pe : before.Perm (List.range existing.length)) (pi : order.Perm (List.range incoming.length))
    {n : Match} :
    n ∈ matched existing incoming ↔
      ∃ m ∈ matched (arrange before existing) (arrange order incoming),
        m.renumber (placeIn order) (placeIn before) = n := by
  have group (g : Option String) :
      n ∈ groupMatches (membersOf g existing) (membersOf g incoming) ↔
        ∃ m ∈ groupMatches (membersOf g (arrange before existing))
          (membersOf g (arrange order incoming)),
          m.renumber (placeIn order) (placeIn before) = n := by
    have before_perm : before.Perm (List.range (existing.map Record.toTerms).length) := by
      simpa using pe
    have order_perm : order.Perm (List.range (incoming.map Record.toTerms).length) := by
      simpa using pi
    have held := members_arrange g before_perm
    have waiting := members_arrange g order_perm
    rw [← groupMatches_perm (untied.apart g) (untied'.apart g) held waiting, groupMatches_renumber,
      List.mem_map, membersOf, membersOf, arrange_map, arrange_map]
  simp only [matched, mem_allMatches, group]
  constructor
  · rintro ⟨g, m, found, rfl⟩
    exact ⟨m, ⟨g, found⟩, rfl⟩
  · rintro ⟨m, ⟨g, found⟩, rfl⟩
    exact ⟨g, m, found, rfl⟩

theorem resolution_arrange (untied : Untied existing) (untied' : Untied incoming)
    (pe : before.Perm (List.range existing.length)) (pi : order.Perm (List.range incoming.length))
    (j : Nat) :
    (reconcile (arrange before existing) (arrange order incoming)).resolutions[j]? =
      order[j]?.bind fun n => (reconcile existing incoming).resolutions[n]? := by
  have place := arrange_getElem? pi j
  cases here : order[j]? with
  | none =>
    rw [reconcile_getElem?, place, here]
    rfl
  | some n =>
    have moved : placeIn order j = n := by simp [placeIn, here]
    have bound : n < incoming.length := (mem_order pi).mp (List.mem_of_getElem? here)
    have came : incoming[n]? = some incoming[n] := List.getElem?_eq_getElem bound
    rw [here, Option.bind_some, came] at place
    rw [Option.bind_some]
    cases decided : matchAt? (matched (arrange before existing) (arrange order incoming)) j with
    | some m =>
      obtain ⟨found, rfl⟩ := matchAt?_some.mp decided
      obtain ⟨_, e, _, source, _⟩ := matched_records found
      have whole := (mem_matched_arrange untied untied' pe pi).mpr ⟨m, found, rfl⟩
      have source' : existing[placeIn before m.existing]? = some e := by
        rw [arrange_getElem? pe, Option.bind_eq_some_iff] at source
        obtain ⟨k, there, source⟩ := source
        rwa [placeIn, there]
      rw [resolution_matched found source, ← moved]
      exact (resolution_matched whole source').symm
    | none =>
      rw [resolution_unmatched place (matchAt?_none.mp decided)]
      refine (resolution_unmatched came fun w found there => ?_).symm
      obtain ⟨m, found', rfl⟩ := (mem_matched_arrange untied untied' pe pi).mp found
      -- places are translated injectively, so the match would be one of the record at its new place
      obtain ⟨_, _, other, _, _⟩ := matched_records found'
      rw [arrange_getElem? pi, Option.bind_eq_some_iff] at other
      obtain ⟨k, elsewhere, _⟩ := other
      have same : k = n := by simpa [Match.renumber, placeIn, elsewhere] using there
      have nodup : order.Nodup := pi.nodup_iff.mpr List.nodup_range
      have bound' := (List.getElem?_eq_some_iff.mp elsewhere).1
      refine matchAt?_none.mp decided m found' ?_
      exact (List.getElem?_inj bound' nodup).mp (by rw [elsewhere, here, same])

/- Where nothing ties within a group, the existing records may come in any order, and the incoming ones
   take their resolutions along to wherever they are moved. -/
theorem order_only_breaks_ties (untied : Untied existing) (untied' : Untied incoming)
    (perm : existing'.Perm existing) :
    reconcile existing' incoming = reconcile existing incoming ∧
    ∀ order : List Nat, order.Perm (List.range incoming.length) →
      (reconcile existing' (arrange order incoming)).resolutions =
        arrange order (reconcile existing incoming).resolutions := by
  obtain ⟨before, pe, rfl⟩ := exists_arrange perm
  have moved (order : List Nat) (pi : order.Perm (List.range incoming.length)) :
      (reconcile (arrange before existing) (arrange order incoming)).resolutions =
        arrange order (reconcile existing incoming).resolutions := by
    refine List.ext_getElem? fun j => ?_
    rw [resolution_arrange untied untied' pe pi, arrange_getElem? (by rwa [reconcile_length])]
  refine ⟨?_, moved⟩
  have still := moved _ (.refl _)
  rw [arrange_range, ← reconcile_length existing, arrange_range] at still
  exact congrArg Reconciliation.mk still

/- Two groups over all three passes, with equal quantities and identities in different groups. Both
   sides are turned round. -/
theorem order_only_breaks_ties_turned :
    let existing := [(Record.ofPool "a" "p" 5).withUpstream "e" "c", .ofPool "b" "p" 7,
      .ofPool "c" "p" 4, (Record.ofPool "d" "q" 7).withUpstream "e" "c"]
    let incoming := [Record.ofPool "1" "p" 1, (Record.ofPool "2" "p" 4).withUpstream "e" "c",
      .ofPool "3" "p" 7, (Record.ofPool "4" "q" 1).withUpstream "e" "", .ofPool "5" "p" 3]
    Untied existing ∧ Untied incoming ∧ existing.reverse.Perm existing ∧
      [4, 3, 2, 1, 0].Perm (List.range incoming.length) ∧
      (reconcile existing.reverse incoming.reverse).resolutions =
        (reconcile existing incoming).resolutions.reverse ∧
      (reconcile existing incoming).resolutions.map Resolution.pass? =
        [none, some .identity, some .quantity, some .rank, some .rank] := by
  intro existing incoming
  have untied : Untied existing := by decide
  have untied' : Untied incoming := by decide
  have perm : existing.reverse.Perm existing := List.reverse_perm existing
  have order : [4, 3, 2, 1, 0].Perm (List.range incoming.length) := by decide
  have moved := (order_only_breaks_ties untied untied' perm).2 _ order
  have passes : (reconcile existing incoming).resolutions.map Resolution.pass? =
      [none, some .identity, some .quantity, some .rank, some .rank] := by cbv
  exact ⟨untied, untied', perm, order, moved, passes⟩

end SignedManifest.Subscription
