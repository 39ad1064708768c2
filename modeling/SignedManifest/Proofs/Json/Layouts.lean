import SignedManifest.Proofs.Json.Members

/-!
Records, taken back from their members. What has been read of a record is known from the keys that
were read alone, so the order of the members does not matter; fields that were left out get the
values that they have where they are missing.
-/
namespace SignedManifest.Json
open Scan

variable {d : Nat}

/-- Members of an object give a field its value: by a member of its name, or by having none where that
is what the field is worth without one. -/
def Field.Given (f : Field) (d : Nat) (ms : List (String × Json)) (v : f.Value) : Prop :=
  match ms.lookup f.name with
  | some j => f.read.Takes d j v
  | none => f.absent = some v

def Values.Given (d : Nat) (ms : List (String × Json)) : (fs : List Field) → Values fs → Prop
  | [], _ => True
  | f :: fs, v => f.Given d ms v.1 ∧ Values.Given d ms fs v.2

def Slots.fill : (fs : List Field) → Values fs → List String → Slots fs
  | [], _, _ => ()
  | f :: fs, v, ks => (if f.name ∈ ks then some v.1 else none, Slots.fill fs v.2 ks)

theorem lookup_absent {β : Type} {ms : List (String × β)} {k : String}
    (absent : k ∉ ms.map Prod.fst) : ms.lookup k = none := by
  rw [List.lookup_eq_none_iff]
  intro m member
  rw [bne_iff_ne]
  rintro rfl
  exact absent (List.mem_map_of_mem member)

theorem lookup_member {β : Type} {ms : List (String × β)} (once : (ms.map Prod.fst).Nodup)
    {k : String} {b : β} (member : (k, b) ∈ ms) : ms.lookup k = some b := by
  induction ms with
  | nil => cases member
  | cons m ms ih =>
    rw [List.map_cons, List.nodup_cons] at once
    rcases List.mem_cons.mp member with rfl | later
    · simp
    · have other : k ≠ m.1 := by
        rintro rfl
        exact once.1 (List.mem_map.mpr ⟨_, later, rfl⟩)
      rw [List.lookup_cons, beq_false_of_ne other]
      exact ih once.2 later

namespace Slots

theorem fill_nil (fs : List Field) (v : Values fs) : fill fs v [] = empty fs := by
  induction fs with
  | nil => rfl
  | cons f fs ih => simp [fill, empty, ih]

theorem filled_fill {fs : List Field} {v : Values fs} {ks : List String} {k : String}
    (fresh : k ∉ ks) : filled fs (fill fs v ks) k = false := by
  induction fs with
  | nil => rfl
  | cons f fs ih =>
    simp only [filled, fill]
    split
    · rename_i here
      simp [here, fresh]
    · exact ih

theorem fill_other {fs : List Field} {v : Values fs} {ks : List String} {k : String}
    (other : k ∉ fs.map Field.name) : fill fs v (k :: ks) = fill fs v ks := by
  induction fs with
  | nil => rfl
  | cons f fs ih =>
    rw [List.map_cons, List.mem_cons, not_or] at other
    simp [fill, ih other.2, Ne.symm other.1]

theorem readMember_eq {fs : List Field} {v : Values fs} (distinct : (fs.map Field.name).Nodup)
    {ms : List (String × Json)} (given : Values.Given d ms fs v) {k : String} {j : Json}
    (here : ms.lookup k = some j) (known : k ∈ fs.map Field.name) {form : Json → Json}
    (arranges : Arranges form) {rest : Symbols} (closed : Closed rest) :
    ∃ update, readMember fs k d (some ':' :: ((form j).chars.map some ++ rest)) =
        (if j.depth ≤ d then .ok (update, rest) else .error .malformed) ∧
      ∀ ks, update (fill fs v ks) = fill fs v (k :: ks) := by
  have colon := punctuation_eq (c := ':') (by decide) ((form j).chars.map some ++ rest)
  induction fs with
  | nil => cases known
  | cons f fs ih =>
    obtain ⟨mine, others⟩ := given
    rw [List.map_cons, List.nodup_cons] at distinct
    by_cases same : f.name = k
    · subst same
      rw [Field.Given, here] at mine
      have read := mine form arranges rest closed
      refine ⟨fun slots => (some v.1, slots.2), ?_, fun ks => ?_⟩
      · simp only [readMember, ↓reduceIte, bind_eq, colon, read]
        by_cases fit : j.depth ≤ d <;> simp [fit]
      · simp [fill, fill_other distinct.1]
    · have later := (List.mem_cons.mp known).resolve_left (Ne.symm same)
      obtain ⟨update, read, fills⟩ := ih distinct.2 others later
      refine ⟨fun slots => (slots.1, update slots.2), ?_, fun ks => ?_⟩
      · simp only [readMember, same, ↓reduceIte, bind_eq, read]
        by_cases fit : j.depth ≤ d <;> simp [fit]
      · simp [fill, fills, same]

theorem finish_fill {fs : List Field} {v : Values fs} {ms : List (String × Json)}
    (given : Values.Given d ms fs v) {ks : List String} (all : ∀ m ∈ ms, m.1 ∈ ks) :
    finish fs (fill fs v ks) = .ok v := by
  induction fs with
  | nil => rfl
  | cons f fs ih =>
    obtain ⟨mine, others⟩ := given
    have rest := ih others
    have value : (if f.name ∈ ks then some v.1 else none).or f.absent = some v.1 := by
      rw [Field.Given] at mine
      cases member : ms.lookup f.name with
      | none =>
        rw [member] at mine
        split <;> simp [mine]
      | some j =>
        obtain ⟨before, after, split, _⟩ := List.lookup_eq_some_iff.mp member
        simp [all (f.name, j) (by simp [split])]
    simp [finish, fill, value, rest, Except.map]

def member (fs : List Field) (depth : Nat) (k : String) (slots : Slots fs) : Scan (Slots fs) := do
  if filled fs slots k then fail (.duplicateField k)
  let update ← readMember fs k depth
  return update slots

theorem readMembers_eq_members (fs : List Field) (depth n : Nat) (first : Bool) (slots : Slots fs) :
    readMembers fs depth n first slots = members (member fs depth) n first slots := by
  induction n generalizing first slots with
  | zero => rfl
  | succ n ih =>
    funext s
    simp only [readMembers, members, bind_eq]
    rcases nextKey first s with e | ⟨_ | _, s⟩
    · rfl
    · rfl
    · simp only [↓reduceIte, bind_eq]
      rcases key s with e | ⟨k, s⟩
      · rfl
      simp only [member]
      split
      · rfl
      · simp only [bind_eq, ih]
        rcases readMember fs k depth s with e | ⟨update, s⟩ <;> rfl

theorem member_steps {fs : List Field} {v : Values fs} (distinct : (fs.map Field.name).Nodup)
    {ms : List (String × Json)} (given : Values.Given d ms fs v) (once : (ms.map Prod.fst).Nodup)
    (known : ∀ m ∈ ms, m.1 ∈ fs.map Field.name) {form : Json → Json} (arranges : Arranges form)
    {l : List (String × Json)} (perm : l.Perm ms) :
    StepsThrough (member fs d) (fun done => fill fs v (done.map Prod.fst).reverse) Prod.fst
      (fun m => form m.2) (fun m => m.2.depth ≤ d) l := by
  intro done m more whole rest closed
  have there : (m.1, m.2) ∈ ms := perm.mem_iff.mp (by simp [whole])
  obtain ⟨update, read, fills⟩ :=
    readMember_eq distinct given (lookup_member once there) (known m there) arranges closed
  have fresh : m.1 ∉ (done.map Prod.fst).reverse := by
    have apart := (perm.map Prod.fst).nodup_iff.mpr once
    rw [whole, List.map_append, List.map_cons] at apart
    rw [List.mem_reverse]
    exact fun again => (List.nodup_append.mp apart).2.2 _ again _ (by simp) rfl
  simp only [member, filled_fill fresh, Bool.false_eq_true, ↓reduceIte, bind_eq, pure_eq, read]
  by_cases fit : m.2.depth ≤ d <;> simp [fit, fills]

end Slots

/- A record is taken back from its members in any order, each at one level less. -/
theorem Layout.takes_members {α : Type} {l : Layout α} (distinct : (l.fields.map Field.name).Nodup)
    {ms : List (String × Json)} (once : (ms.map Prod.fst).Nodup)
    (known : ∀ m ∈ ms, m.1 ∈ l.fields.map Field.name) {v : Values l.fields}
    (given : ∀ e < d, Values.Given e ms l.fields v) : l.codec.read.Takes d (.obj ms) (l.make v) := by
  have plain : (ms.map fun m => (m.1, m.2)) = ms := List.map_id ms
  rw [← plain]
  refine @Reader.takes_object _ _ d l.codec.read _ (fun _ _ => rfl) Prod.fst Prod.snd ms once _ ?_
  intro d less form arranges moved perm rest
  have all := members_eq (Slots.member_steps distinct (given d less) once known arranges perm) rest
  have ends : punctuation '\x7d' (some '\x7d' :: rest) = .ok ((), rest) :=
    punctuation_eq (by decide) rest
  have done : Slots.finish l.fields (Slots.fill l.fields v (moved.map Prod.fst).reverse) = .ok v :=
    Slots.finish_fill (given d less) fun m member => by
      rw [List.mem_reverse]
      exact List.mem_map_of_mem (perm.mem_iff.mpr member)
  simp only [List.map_nil, List.reverse_nil, Slots.fill_nil] at all
  simp only [bind_eq, get_eq, Slots.readMembers_eq_members, all]
  by_cases fit : ∀ m ∈ moved, m.2.depth ≤ d
  · simp only [if_pos fit, done, bind_eq, ends, pure_eq]
  · simp only [if_neg fit]

/-! ### Records as they are written -/

/-- A field that is written is taken back, and one that is left out has its value anyway. -/
def Field.Takes (f : Field) (d : Nat) (v v' : f.Value) : Prop :=
  match f.write v with
  | some j => f.read.Takes d j v'
  | none => f.absent = some v'

namespace Values

def Take (d : Nat) : (fs : List Field) → Values fs → Values fs → Prop
  | [], _, _ => True
  | f :: fs, v, v' => f.Takes d v.1 v'.1 ∧ Take d fs v.2 v'.2

theorem members_sublist (fs : List Field) (v : Values fs) :
    ((members fs v).map Prod.fst).Sublist (fs.map Field.name) := by
  induction fs with
  | nil => exact .slnil
  | cons f fs ih =>
    simp only [members]
    split
    · exact (ih v.2).cons _
    · exact (ih v.2).cons_cons _

theorem Given.beside {fs : List Field} {v : Values fs} {ms : List (String × Json)} {k : String}
    (other : k ∉ fs.map Field.name) (j : Json) (given : Given d ms fs v) :
    Given d ((k, j) :: ms) fs v := by
  induction fs with
  | nil => trivial
  | cons f fs ih =>
    rw [List.map_cons, List.mem_cons, not_or] at other
    refine ⟨?_, ih other.2 given.2⟩
    have mine := given.1
    rwa [Field.Given, List.lookup_cons, beq_false_of_ne (Ne.symm other.1)]

theorem Take.given {fs : List Field} {v v' : Values fs} (distinct : (fs.map Field.name).Nodup)
    (take : Take d fs v v') : Given d (members fs v) fs v' := by
  induction fs with
  | nil => trivial
  | cons f fs ih =>
    obtain ⟨mine, others⟩ := take
    rw [List.map_cons, List.nodup_cons] at distinct
    have rest := ih distinct.2 others
    rw [Field.Takes] at mine
    simp only [members]
    cases wrote : f.write v.1 with
    | none =>
      rw [wrote] at mine
      refine ⟨?_, rest⟩
      have absent : (members fs v.2).lookup f.name = none :=
        lookup_absent fun member => distinct.1 ((members_sublist fs v.2).mem member)
      rwa [Field.Given, absent]
    | some j =>
      rw [wrote] at mine
      refine ⟨?_, rest.beside distinct.1 j⟩
      rwa [Field.Given, List.lookup_cons_self]

end Values

theorem Layout.takes {α : Type} {l : Layout α} (distinct : (l.fields.map Field.name).Nodup) {a a' : α}
    {v' : Values l.fields} (take : ∀ e < d, Values.Take e l.fields (l.parts a) v')
    (made : l.make v' = a') : l.codec.read.Takes d (l.codec.write a) a' := by
  have within := Values.members_sublist l.fields (l.parts a)
  rw [← made]
  exact Layout.takes_members distinct (within.nodup distinct)
    (fun m member => within.mem (List.mem_map_of_mem member)) fun e less => (take e less).given distinct

/-! ### Types without loss -/

def Codec.Faithful {α : Type} (c : Codec α) (d : Nat) : Prop := ∀ a, c.read.Takes d (c.write a) a

def Codec.Filled {α : Type} (c : Codec α) : Prop := ∀ a, c.write a ≠ .null

def Field.Faithful (f : Field) (d : Nat) : Prop := ∀ v, f.Takes d v v

namespace Codec

variable {α : Type} {c : Codec α}

theorem faithful_text (d : Nat) : text.Faithful d := fun t => takes_textAs _ t d

theorem filled_text : text.Filled := nofun

theorem Faithful.option (faithful : c.Faithful d) (filled : c.Filled) : c.option.Faithful d
  | none => takes_none c d
  | some a => takes_some (filled a) (faithful a)

theorem Faithful.list (faithful : ∀ e < d, c.Faithful e) : (Codec.list c).Faithful d := by
  intro l
  have takes := takes_list (l := l) (f := id) fun e less a _ => faithful e less a
  rwa [List.map_id] at takes

theorem Faithful.map (faithful : ∀ e < d, c.Faithful e) : (Codec.map c).Faithful d :=
  fun _ => takes_map fun e less a _ => faithful e less a

theorem filled_layout (l : Layout α) : l.codec.Filled := nofun

end Codec

namespace Field

variable {α : Type} {name : String} {c : Codec α}

theorem Faithful.required (faithful : c.Faithful d) : (Field.required name c).Faithful d :=
  faithful

theorem Faithful.defaulted {a : α} (faithful : c.Faithful d) :
    (Field.defaulted name c a).Faithful d := faithful

theorem Faithful.optional (faithful : c.Faithful d) (filled : c.Filled) :
    (Field.optional name c).Faithful d
  | none => rfl
  | some a => faithful.option filled (some a)

theorem Faithful.nullable (faithful : c.Faithful d) (filled : c.Filled) :
    (Field.nullable name c).Faithful d :=
  faithful.option filled

end Field

theorem Values.take_same {fs : List Field} (each : fs.Forall (Field.Faithful · d)) (v : Values fs) :
    Values.Take d fs v v := by
  induction fs with
  | nil => trivial
  | cons f fs ih =>
    rw [List.forall_cons] at each
    exact ⟨each.1 v.1, ih each.2 v.2⟩

theorem Layout.faithful {α : Type} {l : Layout α} (distinct : (l.fields.map Field.name).Nodup)
    (each : ∀ e < d, l.fields.Forall (Field.Faithful · e)) (made : ∀ a, l.make (l.parts a) = a) :
    l.codec.Faithful d :=
  fun a => Layout.takes distinct (fun e less => Values.take_same (each e less) (l.parts a)) (made a)

end SignedManifest.Json
