import SignedManifest.Subscription.Reconciliation
import SignedManifest.Proofs.Subscription.Matching

/-!
What reconciliation decides for a batch of records. Every record continues at most one existing
record and no two continue the same one; a group inherits as many ids as its smaller side allows.
Ids may repeat on either side, so all of this is said of places.
-/
namespace SignedManifest.Subscription

def matched (existing incoming : List Record) : List Match :=
  allMatches (existing.map Record.toTerms) (incoming.map Record.toTerms)

variable {existing incoming : List Record}

theorem reconcile_getElem? (existing incoming : List Record) (i : Nat) :
    (reconcile existing incoming).resolutions[i]? =
      incoming[i]?.map fun r => resolve existing r (matchAt? (matched existing incoming) i) := by
  simp only [reconcile, matched, List.getElem?_map, List.getElem?_zipIdx, Option.map_map,
    Function.comp_def, Nat.zero_add]

theorem reconcile_length (existing incoming : List Record) :
    (reconcile existing incoming).resolutions.length = incoming.length := by
  simp [reconcile]

theorem matched_records {m : Match} (found : m ∈ matched existing incoming) :
    ∃ r e, incoming[m.incoming]? = some r ∧ existing[m.existing]? = some e ∧
      r.group = e.group := by
  obtain ⟨t, u, left, right, same⟩ := allMatches_places found
  rw [List.getElem?_map] at left right
  obtain ⟨r, hr, rfl⟩ := Option.map_eq_some_iff.mp left
  obtain ⟨e, he, rfl⟩ := Option.map_eq_some_iff.mp right
  exact ⟨r, e, hr, he, same⟩

theorem resolution_matched {m : Match} {e : Record} (found : m ∈ matched existing incoming)
    (source : existing[m.existing]? = some e) :
    (reconcile existing incoming).resolutions[m.incoming]? = some (.inherited e.id m.pass) := by
  obtain ⟨r, _, place, _, _⟩ := matched_records found
  have decided : matchAt? (matched existing incoming) m.incoming = some m :=
    matchAt?_some.mpr ⟨found, rfl⟩
  simp [reconcile_getElem?, place, decided, resolve, source]

theorem resolution_unmatched {i : Nat} {r : Record} (place : incoming[i]? = some r)
    (missed : ∀ m ∈ matched existing incoming, m.incoming ≠ i) :
    (reconcile existing incoming).resolutions[i]? = some (.new r.id) := by
  simp [reconcile_getElem?, place, matchAt?_none.mpr missed, resolve]

theorem match_of_inherited {i : Nat} {id : String} {pass : MatchPass}
    (inherits : (reconcile existing incoming).resolutions[i]? = some (.inherited id pass)) :
    ∃ m e, m ∈ matched existing incoming ∧ m.incoming = i ∧ m.pass = pass ∧
      existing[m.existing]? = some e ∧ e.id = id := by
  cases decided : matchAt? (matched existing incoming) i with
  | none =>
    rw [reconcile_getElem?, decided] at inherits
    obtain ⟨r, _, bad⟩ := Option.map_eq_some_iff.mp inherits
    cases bad
  | some m =>
    obtain ⟨found, rfl⟩ := matchAt?_some.mp decided
    obtain ⟨_, e, _, source, _⟩ := matched_records found
    rw [resolution_matched found source] at inherits
    cases inherits
    exact ⟨m, e, found, rfl, rfl, source, rfl⟩

theorem record_of_new {i : Nat} {id : String}
    (keeps : (reconcile existing incoming).resolutions[i]? = some (.new id)) :
    ∃ r, incoming[i]? = some r ∧ r.id = id := by
  cases decided : matchAt? (matched existing incoming) i with
  | none =>
    rw [reconcile_getElem?, decided] at keeps
    obtain ⟨r, place, same⟩ := Option.map_eq_some_iff.mp keeps
    exact ⟨r, place, Resolution.new.inj same⟩
  | some m =>
    obtain ⟨found, rfl⟩ := matchAt?_some.mp decided
    obtain ⟨_, e, _, source, _⟩ := matched_records found
    rw [resolution_matched found source] at keeps
    cases keeps

/-! ### One existing record for each inheriting one -/

/-- `source` says which existing record each incoming one continues, if any: a record with a source
takes over that record's id, within the group; one without a source is new. -/
structure Accounts (existing incoming : List Record) (source : Nat → Option Nat) : Prop where
  inherited : ∀ i k, source i = some k → ∃ r e pass, incoming[i]? = some r ∧
    existing[k]? = some e ∧ e.group = r.group ∧
    (reconcile existing incoming).resolutions[i]? = some (.inherited e.id pass)
  kept : ∀ i r, source i = none → incoming[i]? = some r →
    (reconcile existing incoming).resolutions[i]? = some (.new r.id)
  injective : ∀ i j k, source i = some k → source j = some k → i = j

def inheritors (g : Option String) (existing incoming : List Record) : List Nat :=
  (List.range incoming.length).filter fun i =>
    incoming[i]?.map (fun r => r.group) == some g &&
      ((reconcile existing incoming).resolutions[i]?.bind Resolution.pass?).isSome

def sourceOf (existing incoming : List Record) (i : Nat) : Option Nat :=
  (matchAt? (matched existing incoming) i).map Match.existing

theorem sourceOf_some {i k : Nat} :
    sourceOf existing incoming i = some k ↔
      ∃ m ∈ matched existing incoming, m.incoming = i ∧ m.existing = k := by
  simp only [sourceOf, Option.map_eq_some_iff, matched, matchAt?_some, and_assoc]

theorem sourceOf_accounts (existing incoming : List Record) :
    Accounts existing incoming (sourceOf existing incoming) where
  inherited := by
    intro i k source
    obtain ⟨m, found, rfl, rfl⟩ := sourceOf_some.mp source
    obtain ⟨r, e, place, stored, same⟩ := matched_records found
    exact ⟨r, e, m.pass, place, stored, same.symm, resolution_matched found stored⟩
  kept := by
    intro i r source place
    exact resolution_unmatched place (matchAt?_none.mp (Option.map_eq_none_iff.mp source))
  injective := by
    intro i j k one two
    obtain ⟨m, hm, rfl, rfl⟩ := sourceOf_some.mp one
    obtain ⟨n, hn, rfl, same⟩ := sourceOf_some.mp two
    rw [allMatches_existing_unique hm hn same.symm]

theorem mem_inheritors {g : Option String} {i : Nat} :
    i ∈ inheritors g existing incoming ↔
      ∃ m ∈ groupMatches (members g (existing.map Record.toTerms))
        (members g (incoming.map Record.toTerms)), m.incoming = i := by
  simp only [inheritors, List.mem_filter, List.mem_range, Bool.and_eq_true, beq_iff_eq,
    Option.isSome_iff_exists]
  constructor
  · rintro ⟨_, inGroup, pass, inherits⟩
    obtain ⟨resolution, at_i, passed⟩ := Option.bind_eq_some_iff.mp inherits
    cases resolution with
    | new id => cases passed
    | inherited id p =>
      obtain ⟨m, _, found, rfl, _, _, _⟩ := match_of_inherited at_i
      obtain ⟨r, place, rfl⟩ := Option.map_eq_some_iff.mp inGroup
      have placed : (incoming.map Record.toTerms)[m.incoming]? = some r.toTerms := by
        simp [place]
      exact ⟨m, (mem_allMatches_of_incoming placed).mp found, rfl⟩
  · rintro ⟨m, inside, rfl⟩
    have found : m ∈ matched existing incoming := mem_allMatches.mpr ⟨g, inside⟩
    obtain ⟨r, e, place, stored, _⟩ := matched_records found
    obtain ⟨⟨t, termed, rfl⟩, _⟩ := match_members inside
    obtain ⟨bound, _⟩ := List.getElem?_eq_some_iff.mp place
    have terms : r.toTerms = t := by simpa [place] using termed
    exact ⟨bound, by simp [place, terms], m.pass, by
      simp [resolution_matched found stored, Resolution.pass?]⟩

theorem inheritors_length (g : Option String) (existing incoming : List Record) :
    (inheritors g existing incoming).length =
      min (existing.countP fun e => e.group == g) (incoming.countP fun r => r.group == g) := by
  have listed : (inheritors g existing incoming).Perm
      ((groupMatches (members g (existing.map Record.toTerms))
        (members g (incoming.map Record.toTerms))).map Match.incoming) := by
    refine (List.perm_ext_iff_of_nodup (List.nodup_range.filter _)
      (groupMatches_incoming_nodup (members_nodup _ _))).mpr fun i => ?_
    rw [List.mem_map]
    exact mem_inheritors
  rw [listed.length_eq, List.length_map, groupMatches_length, members_length, members_length,
    List.countP_map, List.countP_map]
  rfl

/- The whole of an assignment: it is total, injective within groups, and as large as can be. -/
theorem reconcile_maximal_injection (existing incoming : List Record) :
    (reconcile existing incoming).resolutions.length = incoming.length ∧
      (∃ source, Accounts existing incoming source) ∧
      ∀ g, (inheritors g existing incoming).length =
        min (existing.countP fun e => e.group == g) (incoming.countP fun r => r.group == g) :=
  ⟨reconcile_length existing incoming,
    ⟨sourceOf existing incoming, sourceOf_accounts existing incoming⟩,
    fun g => inheritors_length g existing incoming⟩

end SignedManifest.Subscription
