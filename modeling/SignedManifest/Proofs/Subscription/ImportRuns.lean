import SignedManifest.Subscription.Reconciliation
import SignedManifest.Proofs.Subscription.Applying

/-!
Runs of imports from the empty store. Each import may replace an owner's records, be merged into
them or leave them alone. A store that such runs reach never holds an id or an upstream identity
twice for an owner, and an identity that it holds keeps its id through every import that names it.
-/
namespace SignedManifest.Subscription

/-- The pool, entitlement and consumer that identify a subscription upstream. Only the pool may be
absent. -/
def Terms.triple? (t : Terms) : Option (Option String × String × String) :=
  t.identity.map fun (entitlement, consumer) => (t.group, entitlement, consumer)

structure Distinct (records : List Record) : Prop where
  ids : (records.map Record.id).Nodup
  triples : (records.filterMap fun r => r.triple?).Nodup

structure Import where
  owner : String
  incoming : List Record
  keep : Keep
  deriving DecidableEq, Repr

def Store.after (s : Store) (i : Import) : Store := s.afterImport i.owner i.incoming i.keep

/-- The batch is distinct in itself and comes under ids that its owner does not have. -/
structure Import.Fresh (s : Store) (i : Import) : Prop where
  distinct : Distinct i.incoming
  unknown : ∀ r ∈ i.incoming, ∀ e ∈ s.of i.owner, r.id ≠ e.id

inductive Reachable : Store → Prop where
  | empty : Reachable ∅
  | step {s : Store} (i : Import) (reached : Reachable s) (fresh : i.Fresh s) :
      Reachable (s.after i)

theorem triple?_some {t : Terms} {g : Option String} {e c : String} :
    t.triple? = some (g, e, c) ↔ t.group = g ∧ t.identity = some (e, c) := by
  simp only [Terms.triple?, Option.map_eq_some_iff, Prod.mk.injEq, Prod.exists]
  constructor
  · rintro ⟨_, _, named, rfl, rfl, rfl⟩
    exact ⟨rfl, named⟩
  · rintro ⟨rfl, named⟩
    exact ⟨e, c, named, rfl, rfl, rfl⟩

theorem filterMap_place_unique {α β : Type} {f : α → Option β} {l : List α}
    (nodup : (l.filterMap f).Nodup) {i j : Nat} {a b : α} {x : β} (ha : l[i]? = some a)
    (hb : l[j]? = some b) (fa : f a = some x) (fb : f b = some x) : i = j := by
  have apart := List.pairwise_iff_getElem.mp (List.pairwise_filterMap.mp nodup)
  obtain ⟨hi, rfl⟩ := List.getElem?_eq_some_iff.mp ha
  obtain ⟨hj, rfl⟩ := List.getElem?_eq_some_iff.mp hb
  rcases Nat.lt_trichotomy i j with before | same | behind
  · exact absurd rfl (apart i j hi hj before x fa x fb)
  · exact same
  · exact absurd rfl (apart j i hj hi behind x fb x fa)

theorem sole_member {records : List Record} (distinct : Distinct records) {k : Nat} {e : Record}
    {g : Option String} {x : String × String} (place : records[k]? = some e)
    (named : e.triple? = some (g, x)) {y : Placed}
    (member : y ∈ members g (records.map Record.toTerms)) (same : y.1.identity = some x) :
    y = (e.toTerms, k) := by
  obtain ⟨u, n⟩ := y
  obtain ⟨termed, group⟩ := mem_members.mp member
  rw [List.getElem?_map] at termed
  obtain ⟨f, found, rfl⟩ := Option.map_eq_some_iff.mp termed
  obtain rfl := filterMap_place_unique distinct.triples found place
    (triple?_some.mpr ⟨group, same⟩) named
  rw [place] at found
  cases found
  rfl

/- The only incoming record and the only existing one of an identity meet in the identity pass. -/
theorem identity_inherited {existing incoming : List Record} (stored : Distinct existing)
    (given : Distinct incoming) {i k : Nat} {r e : Record}
    {x : Option String × String × String} (place : incoming[i]? = some r)
    (source : existing[k]? = some e) (rx : r.triple? = some x) (ex : e.triple? = some x) :
    (reconcile existing incoming).resolutions[i]? = some (.inherited e.id .identity) := by
  obtain ⟨g, x⟩ := x
  obtain ⟨rg, rn⟩ := triple?_some.mp rx
  obtain ⟨eg, en⟩ := triple?_some.mp ex
  have left : (r.toTerms, i) ∈ members g (incoming.map Record.toTerms) :=
    mem_members.mpr ⟨by simp [place], rg⟩
  have right : (e.toTerms, k) ∈ members g (existing.map Record.toTerms) :=
    mem_members.mpr ⟨by simp [source], eg⟩
  have only_right : ∀ y ∈ members g (existing.map Record.toTerms),
      sameIdentity (r.toTerms, i) y = true → y = (e.toTerms, k) := by
    intro y member suit
    obtain ⟨z, rz, yz⟩ := sameIdentity_iff.mp suit
    exact sole_member stored source ex member (yz.trans (rz.symm.trans rn))
  have only_left : ∀ y ∈ members g (incoming.map Record.toTerms),
      sameIdentity y (e.toTerms, k) = true → y = (r.toTerms, i) := by
    intro y member suit
    obtain ⟨z, yz, ez⟩ := sameIdentity_iff.mp suit
    exact sole_member given place rx member (yz.trans (ez.symm.trans en))
  have pair := claim_pairs_sole (.of_map Prod.snd (members_nodup g _)) left right
    (sameIdentity_iff.mpr ⟨x, rn, en⟩) only_right only_left
  have inside : (⟨i, k, .identity⟩ : Match) ∈ groupMatches
      (members g (existing.map Record.toTerms)) (members g (incoming.map Record.toTerms)) := by
    rw [groupMatches, List.append_assoc]
    exact List.mem_append_left _ (List.mem_map.mpr ⟨_, pair, rfl⟩)
  exact resolution_matched (mem_allMatches.mpr ⟨g, inside⟩) source

/-! ### One import -/

theorem of_after (s : Store) (i : Import) (owner : String) :
    (s.after i).of owner =
      if owner = i.owner then
        i.keep.settle (s.of i.owner) ((s.reconcile i.owner i.incoming).apply i.incoming)
      else s.of owner := by
  simp only [Store.after, Store.afterImport, Store.of, SortedMap.get?_insert,
    Std.LawfulEqCmp.compare_eq_iff_eq]
  split <;> rfl

theorem terms_filterMap {β : Type} (f : Terms → Option β) (records : List Record) :
    records.filterMap (fun r => f r.toTerms) = (records.map Record.toTerms).filterMap f := by
  rw [List.filterMap_map]
  rfl

theorem applied_distinct {existing incoming : List Record} (stored : Distinct existing)
    (given : Distinct incoming) (unknown : ∀ r ∈ incoming, ∀ e ∈ existing, r.id ≠ e.id) :
    Distinct ((reconcile existing incoming).apply incoming) where
  ids := applied_ids_nodup stored.ids given.ids (apart_of_fresh unknown)
  triples := by
    rw [terms_filterMap Terms.triple?, apply_terms, ← terms_filterMap]
    exact given.triples

theorem merged_distinct {existing incoming : List Record} (stored : Distinct existing)
    (given : Distinct incoming) (unknown : ∀ r ∈ incoming, ∀ e ∈ existing, r.id ≠ e.id) :
    Distinct (Keep.merge.settle existing ((reconcile existing incoming).apply incoming)) := by
  have applied := applied_distinct stored given unknown
  have older : (existing.filter fun r => !(((reconcile existing incoming).apply incoming).map
      Record.id).contains r.id).Sublist existing := List.filter_sublist
  constructor
  · rw [Keep.settle, List.map_append, List.nodup_append']
    refine ⟨stored.ids.sublist (older.map _), applied.ids, ?_⟩
    intro id stays taken
    obtain ⟨e, member, rfl⟩ := List.mem_map.mp stays
    simpa [taken] using (List.mem_filter.mp member).2
  · rw [Keep.settle, List.filterMap_append, List.nodup_append']
    refine ⟨stored.triples.sublist (older.filterMap _), applied.triples, ?_⟩
    intro x stays taken
    obtain ⟨e, member, ex⟩ := List.mem_filterMap.mp stays
    obtain ⟨inside, untaken⟩ := List.mem_filter.mp member
    rw [terms_filterMap Terms.triple?, apply_terms, ← terms_filterMap] at taken
    obtain ⟨r, came, rx⟩ := List.mem_filterMap.mp taken
    obtain ⟨k, source⟩ := List.mem_iff_getElem?.mp inside
    obtain ⟨i, place⟩ := List.mem_iff_getElem?.mp came
    have resolved := identity_inherited stored given place source rx ex
    have there := List.mem_of_getElem? (applied_place place resolved)
    have clash : e.id ∈ ((reconcile existing incoming).apply incoming).map Record.id :=
      List.mem_map.mpr ⟨_, there, rfl⟩
    simp [clash] at untaken

theorem settled_distinct {existing incoming : List Record} (keep : Keep)
    (stored : Distinct existing) (given : Distinct incoming)
    (unknown : ∀ r ∈ incoming, ∀ e ∈ existing, r.id ≠ e.id) :
    Distinct (keep.settle existing ((reconcile existing incoming).apply incoming)) := by
  cases keep with
  | replace => exact applied_distinct stored given unknown
  | merge => exact merged_distinct stored given unknown
  | none => exact stored

theorem after_distinct {s : Store} {i : Import} (distinct : ∀ owner, Distinct (s.of owner))
    (fresh : i.Fresh s) (owner : String) : Distinct ((s.after i).of owner) := by
  rw [of_after]
  split
  · exact settled_distinct i.keep (distinct i.owner) fresh.distinct fresh.unknown
  · exact distinct owner

/-! ### Runs -/

theorem reachable_distinct {s : Store} (reached : Reachable s) (owner : String) :
    Distinct (s.of owner) := by
  induction reached generalizing owner with
  | empty => exact ⟨List.nodup_nil, List.nodup_nil⟩
  | step i _ fresh ih => exact after_distinct ih fresh owner

theorem applied_settles {keep : Keep} (stores : keep ≠ .none) {old applied : List Record}
    {r : Record} (member : r ∈ applied) : r ∈ keep.settle old applied := by
  cases keep with
  | replace => exact member
  | merge => exact List.mem_append_right _ member
  | none => exact absurd rfl stores

theorem settled_member {keep : Keep} {old applied : List Record} {r : Record}
    (member : r ∈ keep.settle old applied) : r ∈ old ∨ r ∈ applied := by
  cases keep with
  | replace => exact Or.inr member
  | merge =>
    rcases List.mem_append.mp member with stays | came
    · exact Or.inl (List.mem_of_mem_filter stays)
    · exact Or.inr came
  | none => exact Or.inl member

theorem triple_holder_unique {records : List Record} (distinct : Distinct records)
    {e f : Record} (he : e ∈ records) (hf : f ∈ records) {x : Option String × String × String}
    (ex : e.triple? = some x) (fx : f.triple? = some x) : e = f := by
  obtain ⟨i, place⟩ := List.mem_iff_getElem?.mp he
  obtain ⟨j, other⟩ := List.mem_iff_getElem?.mp hf
  obtain rfl := filterMap_place_unique distinct.triples place other ex fx
  rw [place] at other
  exact Option.some.inj other

theorem settled_id {existing incoming : List Record} (keep : Keep) (stored : Distinct existing)
    (given : Distinct incoming) {e f : Record} (held : e ∈ existing)
    (holds : f ∈ keep.settle existing ((reconcile existing incoming).apply incoming))
    {x : Option String × String × String} (ex : e.triple? = some x) (fx : f.triple? = some x) :
    f.id = e.id := by
  rcases settled_member holds with stays | came
  · rw [triple_holder_unique stored held stays ex fx]
  · obtain ⟨i, applied⟩ := List.mem_iff_getElem?.mp came
    obtain ⟨k, source⟩ := List.mem_iff_getElem?.mp held
    obtain ⟨r, place, same⟩ := applied_source applied
    have resolved := identity_inherited stored given place source (same ▸ fx) ex
    rw [applied_place place resolved] at applied
    rw [← Option.some.inj applied]
    rfl

/- In every reachable store ids and identities are distinct. From there an import touches its owner
   only, and no identity that the owner holds changes its id. -/
theorem reachable_store_keeps_identities {s : Store} (reached : Reachable s) :
    (∀ owner, Distinct (s.of owner)) ∧
    ∀ i : Import, i.Fresh s →
      (∀ other, other ≠ i.owner ∨ i.keep = .none → (s.after i).of other = s.of other) ∧
      (∀ (n : Nat) (r e : Record), i.incoming[n]? = some r → e ∈ s.of i.owner →
        r.triple?.isSome → r.triple? = e.triple? →
        (s.reconcile i.owner i.incoming).resolutions[n]? = some (.inherited e.id .identity) ∧
        (i.keep ≠ .none → ⟨r.toTerms, e.id⟩ ∈ (s.after i).of i.owner)) ∧
      ∀ (e f : Record), e ∈ s.of i.owner → f ∈ (s.after i).of i.owner →
        e.triple?.isSome → f.triple? = e.triple? → f.id = e.id := by
  have distinct := reachable_distinct reached
  refine ⟨distinct, fun i fresh => ⟨?_, ?_, ?_⟩⟩
  · intro other apart
    rw [of_after]
    split
    · rename_i same
      rcases apart with differs | left
      · exact absurd same differs
      · rw [left, same, Keep.settle]
    · rfl
  · intro n r e place member named same
    obtain ⟨x, rx⟩ := Option.isSome_iff_exists.mp named
    obtain ⟨k, source⟩ := List.mem_iff_getElem?.mp member
    have resolved := identity_inherited (distinct i.owner) fresh.distinct place source rx
      (same ▸ rx)
    refine ⟨resolved, fun stores => ?_⟩
    rw [of_after, if_pos rfl]
    exact applied_settles stores (List.mem_of_getElem? (applied_place place resolved))
  · intro e f held holds named same
    obtain ⟨x, ex⟩ := Option.isSome_iff_exists.mp named
    rw [of_after, if_pos rfl] at holds
    exact settled_id i.keep (distinct i.owner) fresh.distinct held holds ex (same.trans ex)

/- A merge after a replacement: the identity comes back with another quantity, beside a record that
   takes over the other old id by rank. -/
theorem reachable_store_keeps_identities_merged :
    let first : Import := ⟨"o", [(Record.ofPool "1" "p" 5).withUpstream "e" "c",
      (Record.ofPool "2" "p" 9).withUpstream "f" "c"], .replace⟩
    let other : Import := ⟨"n", [(Record.ofPool "1" "p" 5).withUpstream "e" "c"], .merge⟩
    let again : Import := ⟨"o", [(Record.ofPool "3" "p" 8).withUpstream "g" "c",
      (Record.ofPool "4" "p" 7).withUpstream "e" "c"], .merge⟩
    let s := (Store.after ∅ first).after other
    Reachable s ∧ again.Fresh s ∧
      (s.reconcile "o" again.incoming).resolutions[1]? = some (.inherited "1" .identity) ∧
      (s.after again).of "n" = s.of "n" := by
  intro first other again s
  have start : first.Fresh ∅ := ⟨⟨by decide, by decide⟩, by decide⟩
  have beside : other.Fresh (Store.after ∅ first) := ⟨⟨by decide, by decide⟩, by
    decide +kernel⟩
  have reached : Reachable s := .step other (.step first .empty start) beside
  have held : s.of "o" = [(Record.ofPool "1" "p" 5).withUpstream "e" "c",
      (Record.ofPool "2" "p" 9).withUpstream "f" "c"] := by cbv
  have fresh : again.Fresh s := ⟨⟨by decide, by decide⟩, by
    rw [held]
    decide⟩
  have keeps := (reachable_store_keeps_identities reached).2 again fresh
  have named := keeps.2.1 1 _ ((Record.ofPool "1" "p" 5).withUpstream "e" "c") rfl
    (by rw [held]; decide) (by decide) (by decide)
  exact ⟨reached, fresh, named.1, keeps.1 "n" (by decide)⟩

end SignedManifest.Subscription
