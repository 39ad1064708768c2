import Mathlib.Data.List.Permutation
import SignedManifest.Subscription.Reconciliation
import SignedManifest.Proofs.Json.Layouts

/-!
Subscription records and the outcomes of a reconciliation, read back from their JSON. The tag of a
resolution may stand anywhere among its members.
-/
namespace SignedManifest.Subscription
open Json Codec Scan

variable {d : Nat}

/-! ### Records -/

theorem Draft.idField_faithful : Draft.idField.Faithful d
  | none => rfl
  | some t => (takes_textAs _ t d).map some

theorem Draft.faithful : Draft.layout.codec.Faithful d :=
  Layout.faithful (by decide) (fun e _ => ⟨Draft.idField_faithful,
    .defaulted ((faithful_text e).option filled_text),
    .defaulted ((faithful_text e).option filled_text),
    .defaulted ((faithful_text e).option filled_text), .required (takes_i64 · e)⟩) fun _ => rfl

/-! ### Resolutions -/

theorem MatchPass.faithful : MatchPass.codec.Faithful d
  | .identity => takes_choice rfl d
  | .quantity => takes_choice rfl d
  | .rank => takes_choice rfl d

namespace Resolution

def member (depth : Nat) (k : String) (found : Option Kind × List (String × Content)) :
    Scan (Option Kind × List (String × Content)) := do
  if k = "resolution" then
    if found.1.isSome then fail (.duplicateField k)
    punctuation ':'
    return (some (← readTag), found.2)
  else
    punctuation ':'
    return (found.1, (k, ← Content.read depth) :: found.2)

theorem readMembers_eq_members (depth n : Nat) (first : Bool) (tag : Option Kind)
    (acc : List (String × Content)) : readMembers depth n first tag acc =
      (fun found => (found.1, found.2.reverse)) <$> Scan.members (member depth) n first (tag, acc) := by
  induction n generalizing first tag acc with
  | zero => rfl
  | succ n ih =>
    funext s
    simp only [readMembers, Scan.members, bind_eq, map_eq]
    rcases nextKey first s with e | ⟨_ | _, s⟩
    · rfl
    · rfl
    · simp only [↓reduceIte, bind_eq]
      rcases key s with e | ⟨k, s⟩
      · rfl
      simp only [member]
      split
      · split
        · rfl
        · simp only [bind_eq]
          rcases punctuation ':' s with e | ⟨_, s⟩
          · rfl
          dsimp only
          rcases readTag s with e | ⟨kind, s⟩
          · rfl
          simp only [ih, map_eq, pure_eq]
      · simp only [bind_eq]
        rcases punctuation ':' s with e | ⟨_, s⟩
        · rfl
        dsimp only
        rcases Content.read depth s with e | ⟨v, s⟩
        · rfl
        simp only [ih, map_eq, pure_eq]

def tagOf (l : List (String × String)) : Option Kind :=
  (l.lookup "resolution").bind (Kind.names.lookup ·)

def entriesOf (l : List (String × String)) : List (String × Content) :=
  (l.filter (·.1 ≠ "resolution")).map fun m => (m.1, .string m.2)

theorem content_string (t : String) (rest : Symbols) :
    Content.read d ((Json.str t).chars.map some ++ rest) = .ok (.string t, rest) := by
  have solid : isBlank (some '"') = false := by decide
  rw [Json.chars, stringChars_symbols]
  cases d <;> simp [Content.read, Content.readWith, solid, string_eq]

theorem readTag_eq {t : String} {kind : Kind} (known : Kind.names.lookup t = some kind)
    (rest : Symbols) : readTag ((Json.str t).chars.map some ++ rest) = .ok (kind, rest) := by
  have solid : isBlank (some '"') = false := by decide
  rw [Json.chars, stringChars_symbols]
  simp [readTag, solid, string_eq, variant, known]

theorem member_steps {l : List (String × String)} (once : (l.map Prod.fst).Nodup) {kind : Kind}
    (tagged : ∀ t, ("resolution", t) ∈ l → Kind.names.lookup t = some kind) :
    StepsThrough (member d) (fun done => (tagOf done, (entriesOf done).reverse)) Prod.fst
      (fun m => .str m.2) (fun _ => True) l := by
  rintro done ⟨k, t⟩ more whole rest closed
  have colon := punctuation_eq (c := ':') (by decide) ((Json.str t).chars.map some ++ rest)
  by_cases tag : k = "resolution"
  · subst tag
    have fresh : done.lookup "resolution" = none := by
      rw [whole, List.map_append, List.map_cons] at once
      exact lookup_absent fun member => (List.nodup_append.mp once).2.2 _ member _ (by simp) rfl
    have before : tagOf done = none := by simp [tagOf, fresh]
    have known := tagged t (by simp [whole])
    have read := readTag_eq known rest
    have after : tagOf (done ++ [("resolution", t)]) = some kind := by
      simp [tagOf, List.lookup_append, fresh, known]
    have others : entriesOf (done ++ [("resolution", t)]) = entriesOf done := by
      simp [entriesOf]
    simp [member, before, colon, read, after, others]
  · have read := @content_string d t rest
    have same : tagOf (done ++ [(k, t)]) = tagOf done := by
      simp [tagOf, List.lookup_append, List.lookup_cons, beq_false_of_ne (Ne.symm tag)]
    have others : entriesOf (done ++ [(k, t)]) = entriesOf done ++ [(k, .string t)] := by
      simp [entriesOf, tag]
    simp [member, tag, colon, read, same, others]

theorem ofEntries_inherited {id name : String} {pass : MatchPass}
    (known : MatchPass.names.lookup name = some pass) {l : List (String × Content)}
    (perm : l.Perm [("id", .string id), ("pass", .string name)]) :
    ofEntries .inherited l = .ok (.inherited id pass) := by
  rcases List.perm_pair.mp perm with rfl | rfl
  all_goals
    simp [ofEntries, Parts.add, Content.text, Content.choice, variant, known, bind, Except.bind, pure,
      Except.pure]

theorem entriesOf_perm {l m : List (String × String)} (perm : l.Perm m) :
    (entriesOf l).Perm (entriesOf m) := (perm.filter _).map _

/- A resolution is taken back from its tag and its other members in any order. -/
theorem takes_members {ms : List (String × String)} (once : (ms.map Prod.fst).Nodup) {kind : Kind}
    {tag : String} (tagged : ("resolution", tag) ∈ ms) (known : Kind.names.lookup tag = some kind)
    {a : Resolution} (given : ∀ l, l.Perm (entriesOf ms) → ofEntries kind l = .ok a) :
    codec.read.Takes d (.obj (ms.map fun m => (m.1, .str m.2))) a := by
  refine @Reader.takes_object _ _ d codec.read _ (fun _ _ => rfl) Prod.fst (fun m => .str m.2) ms once
    a ?_
  intro d _ form arranges l perm rest
  have apart : (l.map Prod.fst).Nodup := (perm.map Prod.fst).nodup_iff.mpr once
  have tags (t : String) (member : ("resolution", t) ∈ l) : Kind.names.lookup t = some kind := by
    have here := lookup_member once (perm.mem_iff.mp member)
    rw [lookup_member once tagged] at here
    cases here
    exact known
  have all := members_eq (@member_steps d l apart kind tags) rest
  have tag : tagOf l = some kind := by
    rw [tagOf, lookup_member apart (perm.mem_iff.mpr tagged)]
    exact known
  have empty : tagOf [] = none ∧ entriesOf [] = [] := ⟨rfl, rfl⟩
  have ends : punctuation '\x7d' (some '\x7d' :: rest) = .ok ((), rest) :=
    punctuation_eq (by decide) rest
  have flat : ∀ m ∈ l, (Json.str m.2).depth ≤ d := fun _ _ => Nat.zero_le d
  simp only [empty, List.reverse_nil, implies_true, ↓reduceIte] at all
  simp only [arranges.str, bind_eq, get_eq, readMembers_eq_members, map_eq, all, tag,
    List.reverse_reverse, ends, given _ (entriesOf_perm perm), ofExcept, if_pos flat]
  rfl

theorem faithful : codec.Faithful d
  | .inherited id pass => by
    obtain ⟨name, known, written⟩ : ∃ name, MatchPass.names.lookup name = some pass ∧
        MatchPass.codec.write pass = .str name := by
      cases pass
      · exact ⟨"identity", rfl, rfl⟩
      · exact ⟨"quantity", rfl, rfl⟩
      · exact ⟨"rank", rfl, rfl⟩
    have takes := @takes_members d
      [("resolution", "inherited"), ("id", id), ("pass", name)] (by simp) .inherited "inherited"
      (by simp) rfl (.inherited id pass) fun l perm => ofEntries_inherited known perm
    have spelled : codec.write (.inherited id pass) = .obj [("resolution", .str "inherited"),
        ("id", .str id), ("pass", .str name)] := by
      rw [← written]
      rfl
    rwa [spelled]
  | .new id => by
    refine @takes_members d [("resolution", "new"), ("id", id)] (by simp) .new "new" (by simp) rfl
      (.new id) fun l perm => ?_
    rw [List.perm_singleton.mp perm]
    rfl

end Resolution

theorem Reconciliation.faithful : Reconciliation.codec.Faithful d := by
  intro r form arranges rest closed
  have resolutions : (Codec.list Resolution.codec).Faithful d := .list fun _ _ => Resolution.faithful
  exact (resolutions r.resolutions).map Reconciliation.mk form arranges rest closed

end SignedManifest.Subscription
