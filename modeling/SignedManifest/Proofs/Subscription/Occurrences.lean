import Mathlib.Data.List.Sort
import SignedManifest.Proofs.Subscription.Claiming

/-!
A pass that goes by a key. Elements of other keys, and those without one, neither help nor hinder: of
each key the first on the left take the first on the right, in order and as far as both sides reach.
What is left of either side keeps its order, and it can only grow when more comes to that side and
less to the other.
-/
namespace SignedManifest.Subscription

section
variable {α κ : Type} [DecidableEq κ] {suits : α → α → Bool} {key : α → Option κ}

def ofKey (key : α → Option κ) (x : κ) (l : List α) : List α := l.filter fun a => key a == some x

/-- Elements suit each other when they have a key and it is the same. -/
def ByKey (suits : α → α → Bool) (key : α → Option κ) : Prop :=
  ∀ a b, suits a b = true ↔ ∃ x, key a = some x ∧ key b = some x

theorem mem_ofKey {x : κ} {l : List α} {a : α} :
    a ∈ ofKey key x l ↔ a ∈ l ∧ key a = some x := by
  simp [ofKey]

theorem ofKey_eq_nil {x : κ} {l : List α} (none : ∀ a ∈ l, key a ≠ some x) :
    ofKey key x l = [] := by
  simpa [ofKey] using none

theorem ofKey_cons (x : κ) (a : α) (l : List α) :
    ofKey key x (a :: l) = if key a = some x then a :: ofKey key x l else ofKey key x l := by
  by_cases has : key a = some x <;> simp [ofKey, has]

/- Taking the first of a key shortens that key's list at its head and no other. -/
theorem ofKey_taken (byKey : ByKey suits key) {a b : α} {right others : List α}
    (taken : takeFirst? (suits a) right = some (b, others)) (x : κ) :
    ofKey key x right =
      if key a = some x then b :: ofKey key x others else ofKey key x others := by
  obtain ⟨pre, post, rfl, rfl, hit, skipped⟩ := takeFirst?_some taken
  obtain ⟨y, ay, cy⟩ := (byKey a b).mp hit
  have apart : ofKey key y pre = [] := ofKey_eq_nil fun z member zy => by
    have suit := (byKey a z).mpr ⟨y, ay, zy⟩
    rw [skipped z member] at suit
    contradiction
  by_cases same : y = x
  · subst same
    have empty : pre.filter (fun z => key z == some y) = [] := apart
    simp [ofKey, List.filter_append, empty, ay, cy]
  · have other : some y ≠ some x := fun eq => same (Option.some.inj eq)
    simp [ofKey, List.filter_append, ay, cy, other, same]

structure Served (key : α → Option κ) (left right : List α) (c : Claims α α) : Prop where
  pairs : ∀ x, c.pairs.filter (fun p => key p.1 == some x) =
    (ofKey key x left).zip (ofKey key x right)
  unmatched : ∀ x, ofKey key x c.unmatched = (ofKey key x left).drop (ofKey key x right).length
  free : ∀ x, ofKey key x c.free = (ofKey key x right).drop (ofKey key x left).length

theorem claim_served (byKey : ByKey suits key) (left right : List α) :
    Served key left right (claim suits left right) := by
  induction left generalizing right with
  | nil => exact ⟨by simp [claim, ofKey], by simp [claim, ofKey], by simp [claim, ofKey]⟩
  | cons a left ih =>
    simp only [claim]
    split
    · rename_i b others taken
      have rest := ih others
      have before := ofKey_taken byKey taken
      constructor
      case pairs =>
        intro x
        by_cases has : key a = some x <;> simp [before, ofKey_cons, has, rest.pairs]
      case unmatched =>
        intro x
        by_cases has : key a = some x <;> simp [before, ofKey_cons, has, rest.unmatched]
      case free =>
        intro x
        by_cases has : key a = some x <;> simp [before, ofKey_cons, has, rest.free]
    · rename_i missed
      have rest := ih right
      have none_left (x : κ) (has : key a = some x) : ofKey key x right = [] :=
        ofKey_eq_nil fun z member zx => by
          have suit := (byKey a z).mpr ⟨x, has, zx⟩
          rw [takeFirst?_none.mp missed z member] at suit
          contradiction
      constructor
      case pairs =>
        intro x
        by_cases has : key a = some x
        · simp [rest.pairs, none_left x has]
        · simp [ofKey_cons, has, rest.pairs]
      case unmatched =>
        intro x
        by_cases has : key a = some x
        · simp [ofKey_cons, has, rest.unmatched, none_left x has]
        · simp [ofKey_cons, has, rest.unmatched]
      case free =>
        intro x
        by_cases has : key a = some x
        · simp [rest.free, none_left x has]
        · simp [ofKey_cons, has, rest.free]

theorem claim_pair_iff (byKey : ByKey suits key) {left right : List α} (nodup : left.Nodup) {n : Nat}
    {a b : α} {x : κ} (nth : (ofKey key x left)[n]? = some a) :
    (a, b) ∈ (claim suits left right).pairs ↔ (ofKey key x right)[n]? = some b := by
  have has : key a = some x := (mem_ofKey.mp (List.mem_of_getElem? nth)).2
  have of_key : (a, b) ∈ (claim suits left right).pairs ↔
      (a, b) ∈ (claim suits left right).pairs.filter fun p => key p.1 == some x := by
    simp [has]
  rw [of_key, (claim_served byKey left right).pairs, List.mem_iff_getElem?]
  simp only [List.getElem?_zip_eq_some]
  constructor
  · rintro ⟨m, first, second⟩
    have bound := (List.getElem?_eq_some_iff.mp first).1
    obtain rfl := (List.getElem?_inj bound (nodup.filter _)).mp (first.trans nth.symm)
    exact second
  · intro second
    exact ⟨n, nth, second⟩

end

section
variable {α β : Type} {suits : α → β → Bool}

theorem claim_unmatched_sublist (left : List α) (right : List β) :
    (claim suits left right).unmatched.Sublist left := by
  induction left generalizing right with
  | nil => simp [claim]
  | cons a left ih =>
    simp only [claim]
    split
    · exact (ih _).cons a
    · exact (ih _).cons_cons a

theorem claim_free_sublist (left : List α) (right : List β) :
    (claim suits left right).free.Sublist right := by
  induction left generalizing right with
  | nil => simp [claim]
  | cons a left ih =>
    simp only [claim]
    split
    · rename_i b others taken
      obtain ⟨pre, post, rfl, rfl, _, _⟩ := takeFirst?_some taken
      exact (ih _).trans ((List.sublist_cons_self b post).append_left pre)
    · exact ih right

end

/-! ### More on the one side, less on the other -/

section
variable {α κ : Type} [DecidableEq κ] {suits : α → α → Bool} {key : α → Option κ}
  {l l' m m' c c' : List α}

/-- `c` is what is left of `l` when each key has lost as many of its first as `m` has of it. -/
structure Leftover (key : α → Option κ) (l m c : List α) : Prop where
  sublist : c.Sublist l
  keyed : ∀ x, ofKey key x c = (ofKey key x l).drop (ofKey key x m).length
  keyless : ∀ a ∈ l, key a = none → a ∈ c

theorem claim_unmatched_leftover (byKey : ByKey suits key) (left right : List α) :
    Leftover key left right (claim suits left right).unmatched where
  sublist := claim_unmatched_sublist left right
  keyed := (claim_served byKey left right).unmatched
  keyless := by
    intro a member none
    have spec : Claimed suits left right _ := claim_claimed left right
    refine (List.mem_append.mp (spec.lefts.symm.subset member)).resolve_left fun paired => ?_
    obtain ⟨p, pair, rfl⟩ := List.mem_map.mp paired
    obtain ⟨x, has, _⟩ := (byKey _ _).mp (spec.suited p pair)
    rw [none] at has
    contradiction

theorem claim_free_leftover (byKey : ByKey suits key) (left right : List α) :
    Leftover key right left (claim suits left right).free where
  sublist := claim_free_sublist left right
  keyed := (claim_served byKey left right).free
  keyless := by
    intro b member none
    have spec : Claimed suits left right _ := claim_claimed left right
    refine (List.mem_append.mp (spec.rights.symm.subset member)).resolve_left fun paired => ?_
    obtain ⟨p, pair, rfl⟩ := List.mem_map.mp paired
    obtain ⟨x, _, has⟩ := (byKey _ _).mp (spec.suited p pair)
    rw [none] at has
    contradiction

theorem sublist_of_subset {r : α → α → Prop} [Std.Asymm r] (hl : l.Pairwise r)
    (hm : m.Pairwise r) (sub : l ⊆ m) : l.Sublist m :=
  List.sublist_of_subperm_of_pairwise (List.subperm_of_subset hl.nodup sub) hl hm

/- A key of which something is left on one side has used up the other side. So what is left of it
   starts where the other side ends, and that end only moves on. -/
theorem Leftover.mono {r : α → α → Prop} [Std.Asymm r] (fewer : l'.Sublist l)
    (more : m.Sublist m') (ordered : l.Pairwise r) (small : Leftover key l' m' c')
    (large : Leftover key l m c) : c'.Sublist c := by
  refine sublist_of_subset (ordered.sublist (small.sublist.trans fewer))
    (ordered.sublist large.sublist) fun a left => ?_
  cases has : key a with
  | none => exact large.keyless a (fewer.subset (small.sublist.subset left)) has
  | some x =>
    have longer : (ofKey key x m).length ≤ (ofKey key x m').length := (more.filter _).length_le
    have late := mem_ofKey.mpr ⟨left, has⟩
    rw [small.keyed] at late
    have later := (List.drop_sublist_drop_left _ longer).subset late
    have latest := ((fewer.filter _).drop _).subset later
    exact (mem_ofKey.mp ((large.keyed x).symm ▸ latest)).1

end

end SignedManifest.Subscription
